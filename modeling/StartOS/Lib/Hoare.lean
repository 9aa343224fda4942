import Mathlib.Tactic.Common

/-! # Programs over a state that may stop

A program returns a value and a new state or stops with an error. The run
lemmas take a program apart at its binds; an invariant that every part of a
program keeps is kept by the whole.
-/

namespace Hoare

variable {σ ε α β : Type} {m : StateT σ (Except ε) α} {f : α → StateT σ (Except ε) β}

section Run

variable {s s' : σ} {a : α} {e : ε}

theorem bind_apply : (m >>= f) s = (m s >>= fun r => f r.1 r.2) := rfl

theorem bind_of_ok (h : m s = .ok (a, s')) : (m >>= f) s = f a s' := by
  rw [bind_apply, h]
  rfl

theorem bind_of_error (h : m s = .error e) : (m >>= f) s = .error e := by
  rw [bind_apply, h]
  rfl

theorem bind_eq_ok {b : β} : (m >>= f) s = .ok (b, s') ↔
    ∃ a s₁, m s = .ok (a, s₁) ∧ f a s₁ = .ok (b, s') := by
  rw [bind_apply]
  cases m s with
  | error e => simp [Bind.bind, Except.bind]
  | ok r => obtain ⟨a, s₁⟩ := r; simp [Bind.bind, Except.bind]

theorem bind_returns {s₁ : σ} {b : β} (h : m s = .ok (a, s₁)) (h' : ∃ s', f a s₁ = .ok (b, s')) :
    ∃ s', (m >>= f) s = .ok (b, s') := by
  rw [bind_of_ok h]
  exact h'

@[simp] theorem pure_apply : (pure a : StateT σ (Except ε) α) s = .ok (a, s) := rfl

@[simp] theorem throw_apply : (throw e : StateT σ (Except ε) α) s = .error e := rfl

@[simp] theorem get_bind {f : σ → StateT σ (Except ε) β} :
    ((get : StateT σ (Except ε) σ) >>= f) s = f s s := rfl

@[simp] theorem set_bind {f : PUnit → StateT σ (Except ε) β} :
    ((set s' : StateT σ (Except ε) PUnit) >>= f) s = f ⟨⟩ s' := rfl

@[simp] theorem modify_apply {g : σ → σ} :
    (modify g : StateT σ (Except ε) PUnit) s = .ok (⟨⟩, g s) := rfl

@[simp] theorem modify_bind {g : σ → σ} {f : PUnit → StateT σ (Except ε) β} :
    ((modify g : StateT σ (Except ε) PUnit) >>= f) s = f ⟨⟩ (g s) := rfl

@[simp] theorem pure_bind_apply {f : α → StateT σ (Except ε) β} :
    ((pure a : StateT σ (Except ε) α) >>= f) s = f a s := rfl

end Run

def Keeps (I : σ → Prop) (m : StateT σ (Except ε) α) : Prop :=
  ∀ ⦃s a s'⦄, I s → m s = .ok (a, s') → I s'

namespace Keeps

variable {I : σ → Prop}

theorem pure (a : α) : Keeps I (pure a : StateT σ (Except ε) α) := by
  intro s b s' h hok
  rw [pure_apply, Except.ok.injEq, Prod.mk.injEq] at hok
  exact hok.2 ▸ h

theorem throw (e : ε) : Keeps I (throw e : StateT σ (Except ε) α) := by
  intro s b s' h hok
  cases hok

theorem bind (h : Keeps I m) (hf : ∀ a, Keeps I (f a)) : Keeps I (m >>= f) := by
  intro s b s' hs hok
  obtain ⟨a, s₁, hm, hok⟩ := bind_eq_ok.mp hok
  exact hf a (h hs hm) hok

theorem get : Keeps I (get : StateT σ (Except ε) σ) := by
  intro s b s' h hok
  cases hok
  exact h

theorem modify {g : σ → σ} (hg : ∀ s, I s → I (g s)) :
    Keeps I (modify g : StateT σ (Except ε) PUnit) := by
  intro s b s' h hok
  rw [modify_apply, Except.ok.injEq, Prod.mk.injEq] at hok
  exact hok.2 ▸ hg s h

theorem ite {c : Prop} [Decidable c] {m' : StateT σ (Except ε) α} (h : Keeps I m)
    (h' : Keeps I m') : Keeps I (if c then m else m') := by
  split
  · exact h
  · exact h'

end Keeps

def Ensures (I : σ → Prop) (m : StateT σ (Except ε) α) (Q : α → Prop) : Prop :=
  ∀ ⦃s a s'⦄, I s → m s = .ok (a, s') → I s' ∧ Q a

namespace Ensures

variable {I : σ → Prop} {Q : α → Prop} {R : β → Prop}

theorem pure {a : α} (h : Q a) : Ensures I (pure a : StateT σ (Except ε) α) Q := by
  intro s b s' hs hok
  rw [pure_apply, Except.ok.injEq, Prod.mk.injEq] at hok
  exact ⟨hok.2 ▸ hs, hok.1 ▸ h⟩

theorem throw (e : ε) : Ensures I (throw e : StateT σ (Except ε) α) Q := by
  intro s b s' h hok
  cases hok

theorem bind (h : Ensures I m Q) (hf : ∀ a, Q a → Ensures I (f a) R) : Ensures I (m >>= f) R := by
  intro s b s' hs hok
  obtain ⟨a, s₁, hm, hok⟩ := bind_eq_ok.mp hok
  obtain ⟨h₁, ha⟩ := h hs hm
  exact hf a ha h₁ hok

theorem ite {c : Prop} [Decidable c] {m' : StateT σ (Except ε) α} (h : Ensures I m Q)
    (h' : Ensures I m' Q) : Ensures I (if c then m else m') Q := by
  split
  · exact h
  · exact h'

end Ensures

def Triple (P : σ → Prop) (m : StateT σ (Except ε) α) (E : ε → Prop) (Q : α → σ → Prop) : Prop :=
  ∀ ⦃s⦄, P s → (∀ e, m s = .error e → E e) ∧ ∀ a s', m s = .ok (a, s') → Q a s'

namespace Triple

variable {P : σ → Prop} {E : ε → Prop} {Q : α → σ → Prop} {R : β → σ → Prop}

theorem pure {a : α} (h : ∀ s, P s → Q a s) : Triple P (pure a) E Q := by
  intro s hs
  constructor
  · intro e he
    cases he
  · rintro b s' hok
    cases hok
    exact h s hs

theorem throw {e : ε} (h : E e) : Triple P (throw e) E Q := by
  intro s hs
  constructor
  · rintro e' he
    cases he
    exact h
  · rintro a s' hok
    cases hok

theorem bind (h : Triple P m E Q) (hf : ∀ a, Triple (Q a) (f a) E R) : Triple P (m >>= f) E R := by
  intro s hs
  obtain ⟨herr, hok⟩ := h hs
  cases hm : m s with
  | error e =>
    rw [bind_of_error hm]
    constructor
    · rintro e' he
      cases he
      exact herr e hm
    · rintro b s' hb
      cases hb
  | ok r =>
    rw [bind_of_ok hm]
    exact hf r.1 (hok r.1 r.2 hm)

theorem get_bind {f : σ → StateT σ (Except ε) β} (h : ∀ s, P s → Triple P (f s) E R) :
    Triple P (get >>= f) E R := by
  intro s hs
  rw [Hoare.get_bind]
  exact h s hs hs

theorem modify {g : σ → σ} {Q : PUnit → σ → Prop} (h : ∀ s, P s → Q ⟨⟩ (g s)) :
    Triple P (modify g) E Q := by
  intro s hs
  constructor
  · intro e he
    cases he
  · rintro b s' hok
    cases hok
    exact h s hs

theorem ite {c : Prop} [Decidable c] {m' : StateT σ (Except ε) α}
    (h : c → Triple P m E Q) (h' : ¬c → Triple P m' E Q) : Triple P (if c then m else m') E Q := by
  split
  · exact h ‹_›
  · exact h' ‹_›

theorem conseq {P' : σ → Prop} {Q' : α → σ → Prop} (h : Triple P m E Q) (hP : ∀ s, P' s → P s)
    (hQ : ∀ a s, Q a s → Q' a s) : Triple P' m E Q' := by
  intro s hs
  obtain ⟨herr, hok⟩ := h (hP s hs)
  exact ⟨herr, fun a s' ha => hQ a s' (hok a s' ha)⟩

end Triple

def embed {ε' : Type} (g : ε → ε') (m : StateT σ (Except ε) α) : StateT σ (Except ε') α :=
  fun s => (m s).mapError g

section Embed

variable {ε' : Type} {g : ε → ε'} {s s' : σ} {a : α} {e : ε}

theorem embed_of_ok (h : m s = .ok (a, s')) : embed g m s = .ok (a, s') := by
  rw [embed, h]
  rfl

theorem embed_of_error (h : m s = .error e) : embed g m s = .error (g e) := by
  rw [embed, h]
  rfl

theorem Keeps.embed {I : σ → Prop} {E : ε' → Prop} (h : Keeps I m) (hg : ∀ e, E (g e)) :
    Triple I (embed g m) E fun _ => I := by
  intro s hs
  cases hm : m s with
  | error e =>
    rw [embed_of_error hm]
    constructor
    · rintro e' he
      cases he
      exact hg e
    · rintro b s' hb
      cases hb
  | ok r =>
    rw [embed_of_ok hm]
    constructor
    · rintro e' he
      cases he
    · rintro b s' hb
      cases hb
      exact h hs hm

end Embed

end Hoare
