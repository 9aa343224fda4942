import StartOS.Fs.ReadDir
import StartOS.Lib.Hoare

/-! # The reads of a scan

A scan learns about its directory only from what its reads give, one after another.
So it returns exactly when the same scan over a list of such results returns and
has used the list up.
-/

namespace StartOS.Fat32FileSystem

open Hoare

/-- Reads from `off` on, one entry after another, with what each gives. -/
inductive Ran {σ : Type} (rd : ℕ → StateT σ Kernel (Option ByteMem)) :
    σ → ℕ → List (Option ByteMem) → σ → Prop
  | nil {t off} : Ran rd t off [] t
  | cons {t t₁ t' off v L} (h : rd off t = .ok (v, t₁)) (hL : Ran rd t₁ (off + 32) L t') :
    Ran rd t off (v :: L) t'

def nextResult (_ : ℕ) : StateT (List (Option ByteMem)) Kernel (Option ByteMem) := do
  match ← get with
  | [] => throw .hang
  | v :: rest =>
    set rest
    return v

/-- The program `p`, whose reads begin at `off`, returns exactly when `P` returns over what they
give. -/
def Traced {σ α : Type} (rd : ℕ → StateT σ Kernel (Option ByteMem)) (off : ℕ)
    (p : StateT σ Kernel α) (P : StateT (List (Option ByteMem)) Kernel α) : Prop :=
  ∀ t v t', p t = .ok (v, t') ↔ ∃ L, Ran rd t off L t' ∧ P L = .ok (v, [])

variable {σ α : Type} {rd : ℕ → StateT σ Kernel (Option ByteMem)} {off n nlfn fuel : ℕ}
  {tmp : ByteMem}

namespace Traced

theorem pure (a : α) : Traced rd off (pure a) (pure a) := by
  intro t v t'
  constructor
  · intro h
    cases h
    exact ⟨[], .nil, rfl⟩
  · rintro ⟨L, hran, hL⟩
    cases hL
    cases hran
    rfl

theorem throw (e : Halt) : Traced rd off (throw e : StateT σ Kernel α) (throw e) := by
  intro t v t'
  constructor
  · intro h
    cases h
  · rintro ⟨L, -, hL⟩
    cases hL

theorem read {f : Option ByteMem → StateT σ Kernel α}
    {F : Option ByteMem → StateT (List (Option ByteMem)) Kernel α}
    (h : ∀ v, Traced rd (off + 32) (f v) (F v)) :
    Traced rd off (rd off >>= f) (nextResult off >>= F) := by
  intro t v t'
  constructor
  · intro hok
    obtain ⟨v₁, t₁, hread, hrest⟩ := bind_eq_ok.mp hok
    obtain ⟨L, hran, hL⟩ := (h v₁ t₁ v t').mp hrest
    exact ⟨v₁ :: L, .cons hread hran, hL⟩
  · rintro ⟨L, hran, hL⟩
    cases hran with
    | nil => cases hL
    | cons hread hran =>
      rw [bind_of_ok hread]
      exact (h _ _ v t').mpr ⟨_, hran, hL⟩

theorem ite {c : Prop} [Decidable c] {p p' : StateT σ Kernel α}
    {P P' : StateT (List (Option ByteMem)) Kernel α} (h : Traced rd off p P)
    (h' : Traced rd off p' P') : Traced rd off (if c then p else p') (if c then P else P') := by
  split
  · exact h
  · exact h'

end Traced

section Scans

variable {k : Option Scanned → StateT σ Kernel α}
  {K : Option Scanned → StateT (List (Option ByteMem)) Kernel α}

theorem readGroup_traced (hnone : ∀ off, Traced rd off (k none) (K none))
    (hsome : ∀ g, Traced rd g.off (k (some g)) (K (some g))) :
    Traced rd off (readGroup rd nlfn n off tmp >>= k)
      (readGroup nextResult nlfn n off tmp >>= K) := by
  induction n generalizing off tmp with
  | zero =>
    rw [readGroup, readGroup, bind_assoc, bind_assoc]
    apply Traced.read
    rintro (_ | e)
    · exact Traced.throw _
    · exact hsome ⟨off + 32, e, tmp, nlfn⟩
  | succ n ih =>
    rw [readGroup, readGroup, bind_assoc, bind_assoc]
    apply Traced.read
    rintro (_ | e)
    · exact hnone _
    · dsimp only
      cases copylfn e tmp with
      | none => exact Traced.throw _
      | some tmp => exact ih

theorem readName_traced {short : ByteMem → ByteMem → ByteMem}
    (hnone : ∀ off, Traced rd off (k none) (K none))
    (hsome : ∀ g, Traced rd g.off (k (some g)) (K (some g))) :
    Traced rd off (readName rd short off tmp nlfn >>= k)
      (readName nextResult short off tmp nlfn >>= K) := by
  rw [readName, readName, bind_assoc, bind_assoc]
  apply Traced.read
  rintro (_ | e)
  · exact hnone _
  dsimp only
  by_cases h0 : e 0 = 0
  · rw [if_pos h0, if_pos h0]
    exact hnone _
  rw [if_neg h0, if_neg h0]
  by_cases hl : e 11 ≠ 0x0f
  · rw [if_pos hl, if_pos hl]
    exact hsome ⟨off + 32, e, short e tmp, nlfn⟩
  rw [if_neg hl, if_neg hl]
  by_cases hs : e 0 &&& 0xc0 = 0x40
  · rw [if_pos hs, if_pos hs]
    cases copylfn e tmp with
    | none => exact Traced.throw _
    | some tmp => exact readGroup_traced hnone hsome
  · rw [if_neg hs, if_neg hs]
    exact hsome ⟨off + 32, e, tmp, nlfn⟩

theorem scanLoop_traced {short : ByteMem → ByteMem → ByteMem} {same : ByteMem → Bool} :
    Traced rd off (scanLoop rd short same fuel off tmp nlfn)
      (scanLoop nextResult short same fuel off tmp nlfn) := by
  induction fuel generalizing off tmp nlfn with
  | zero => exact Traced.throw _
  | succ fuel ih =>
    apply readName_traced
    · exact fun off => Traced.pure none
    · intro g
      exact Traced.ite (Traced.pure _) ih

variable {name : ByteMem} {beginOff nameLen : ℕ} {h : ReadDirHeader}
  {f : Option (ℕ × ByteMem × ByteMem × ℕ) → StateT σ Kernel α}
  {F : Option (ℕ × ByteMem × ByteMem × ℕ) → StateT (List (Option ByteMem)) Kernel α}

theorem dirGroup_traced (hnone : ∀ off, Traced rd off (f none) (F none))
    (hsome : ∀ g, Traced rd g.1 (f (some g)) (F (some g))) :
    Traced rd off (dirGroup rd n off name nameLen >>= f)
      (dirGroup nextResult n off name nameLen >>= F) := by
  induction n generalizing off name nameLen with
  | zero =>
    rw [dirGroup, dirGroup, bind_assoc, bind_assoc]
    apply Traced.read
    rintro (_ | e)
    · exact hnone _
    · exact hsome (off + 32, e, name, nameLen)
  | succ n ih =>
    rw [dirGroup, dirGroup, bind_assoc, bind_assoc]
    apply Traced.read
    rintro (_ | e)
    · exact hnone _
    · dsimp only
      cases copylfn e name with
      | none => exact Traced.throw _
      | some name => exact ih

theorem dirLoop_traced : Traced rd off (dirLoop rd tmp fuel off beginOff name h)
    (dirLoop nextResult tmp fuel off beginOff name h) := by
  induction fuel generalizing off beginOff name h with
  | zero => exact Traced.throw _
  | succ fuel ih =>
    rw [dirLoop, dirLoop]
    apply Traced.read
    rintro (_ | e)
    · exact Traced.pure _
    dsimp only
    apply Traced.ite
    · exact Traced.pure _
    apply Traced.ite
    · exact Traced.ite (Traced.pure _) ih
    apply Traced.ite
    · cases copylfn e (name.fill 0 64 0) with
      | none => exact Traced.throw _
      | some name =>
        apply dirGroup_traced
        · exact fun off => Traced.pure _
        · rintro ⟨next, entry, name, nameLen⟩
          exact Traced.ite (Traced.pure _) ih
    · exact ih

end Scans

end StartOS.Fat32FileSystem
