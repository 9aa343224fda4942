import StartOS.Os.SpinLock

/-! # Safety of the spinlock

A hart is in a lock from the swap that takes it to the one that gives it back. What the fields of a lock
say is kept by the four steps that change them, and what a hart may count on by its own.
-/

namespace StartOS

open LabelledRun (Run)

inductive SpinStage
  | out
  | recording
  | held
  | releasing
  deriving DecidableEq

section Word

/-- The fields of a lock and how far the harts are with it. -/
@[ext] structure LockWord (κ : Type*) where
  locked : Bool
  cpuid : Option κ
  used : Bool
  stage : κ → SpinStage

variable {κ : Type*} {init : κ} {w w' : LockWord κ} {k : κ}

structure WordOk (init : κ) (w : LockWord κ) : Prop where
  taken : w.locked = true ↔ ∃ k, w.stage k ≠ .out
  unique : ∀ k k', w.stage k ≠ .out → w.stage k' ≠ .out → k = k'
  holder : w.used = true → ∀ k, w.cpuid = some k ↔ w.stage k = .held
  fresh : w.used = false → w.cpuid = some init ∧ ∀ k, w.stage k = .out ∨ w.stage k = .recording

inductive WordStep [DecidableEq κ] (k : κ) (w : LockWord κ) : LockWord κ → Prop

  | stay : WordStep k w w

  | acquire : w.locked = false →
      WordStep k w { w with locked := true, stage := Function.update w.stage k .recording }

  | record : w.stage k = .recording →
      WordStep k w { w with cpuid := some k, used := true, stage := Function.update w.stage k .held }

  | clear : w.stage k = .held →
      WordStep k w { w with cpuid := none, stage := Function.update w.stage k .releasing }

  | release : w.stage k = .releasing →
      WordStep k w { w with locked := false, stage := Function.update w.stage k .out }

namespace WordOk

theorem out_of_unlocked (h : WordOk init w) (hl : w.locked = false) (k : κ) : w.stage k = .out := by
  by_contra hk
  have := h.taken.mpr ⟨k, hk⟩
  rw [hl] at this
  cases this

theorem out_of_ne (h : WordOk init w) (hk : w.stage k ≠ .out) {j : κ} (hj : j ≠ k) :
    w.stage j = .out := by
  by_contra hout
  exact hj (h.unique j k hout hk)

theorem used_of_held (h : WordOk init w) (hk : w.stage k = .held ∨ w.stage k = .releasing) :
    w.used = true := by
  by_contra hused
  have := (h.fresh (Bool.eq_false_iff.mpr hused)).2 k
  rcases hk with hk | hk <;> simp [hk] at this

variable [DecidableEq κ]

theorem move {stage : κ → SpinStage} (h : ∀ j, j ≠ k → stage j = .out) {st : SpinStage}
    (hst : st ≠ .out) :
    ((true : Bool) = true ↔ ∃ j, Function.update stage k st j ≠ .out) ∧
      ∀ i j, Function.update stage k st i ≠ .out → Function.update stage k st j ≠ .out → i = j := by
  have hout : ∀ j, j ≠ k → Function.update stage k st j = .out := fun j hj => by
    rw [Function.update_of_ne hj, h j hj]
  refine ⟨iff_of_true rfl ⟨k, by rwa [Function.update_self]⟩, fun i j hi hj => ?_⟩
  rw [not_imp_comm.mp (hout i) hi, not_imp_comm.mp (hout j) hj]

theorem step (h : WordOk init w) (hstep : WordStep k w w') : WordOk init w' := by
  cases hstep with
  | stay => exact h
  | acquire hl =>
    have hout := h.out_of_unlocked hl
    obtain ⟨htaken, hunique⟩ := move (fun j _ => hout j) (show SpinStage.recording ≠ .out by decide)
    refine ⟨htaken, hunique, fun hused j => ?_, fun hused => ⟨(h.fresh hused).1, fun j => ?_⟩⟩ <;>
      dsimp only
    · rw [h.holder hused j, hout j]
      by_cases hj : j = k
      · rw [hj, Function.update_self]
        decide
      · rw [Function.update_of_ne hj, hout j]
    · by_cases hj : j = k
      · rw [hj, Function.update_self]
        exact .inr rfl
      · rw [Function.update_of_ne hj]
        exact .inl (hout j)
  | record hk =>
    have hout : ∀ j, j ≠ k → w.stage j = .out := fun j hj => h.out_of_ne (by rw [hk]; decide) hj
    obtain ⟨htaken, hunique⟩ := move hout (show SpinStage.held ≠ .out by decide)
    refine ⟨?_, hunique, fun _ j => ?_, fun hused => nomatch hused⟩ <;> dsimp only
    · rw [h.taken.mpr ⟨k, by rw [hk]; decide⟩]
      exact htaken
    · by_cases hj : j = k
      · rw [hj, Function.update_self]
        exact iff_of_true rfl rfl
      · rw [Function.update_of_ne hj, hout j hj]
        exact iff_of_false (fun he => hj (Option.some.inj he).symm) (by decide)
  | clear hk =>
    have hout : ∀ j, j ≠ k → w.stage j = .out := fun j hj => h.out_of_ne (by rw [hk]; decide) hj
    obtain ⟨htaken, hunique⟩ := move hout (show SpinStage.releasing ≠ .out by decide)
    have hused := h.used_of_held (.inl hk)
    refine ⟨?_, hunique, fun _ j => iff_of_false (by simp) ?_, fun hfresh => ?_⟩ <;> dsimp only
    · rw [h.taken.mpr ⟨k, by rw [hk]; decide⟩]
      exact htaken
    · by_cases hj : j = k
      · rw [hj, Function.update_self]
        decide
      · rw [Function.update_of_ne hj, hout j hj]
        decide
    · exact absurd (hused.symm.trans hfresh) (by simp)
  | release hk =>
    have hout : ∀ j, Function.update w.stage k .out j = .out := fun j => by
      by_cases hj : j = k
      · rw [hj, Function.update_self]
      · rw [Function.update_of_ne hj, h.out_of_ne (by rw [hk]; decide) hj]
    have hused := h.used_of_held (.inr hk)
    refine ⟨iff_of_false (by simp) fun ⟨j, hj⟩ => hj (hout j), fun i _ hi => absurd (hout i) hi,
      fun _ j => ?_, fun hfresh => absurd (hused.symm.trans hfresh) (by simp)⟩
    have hheld : w.stage j ≠ .held := by
      by_cases hj : j = k
      · rw [hj, hk]
        decide
      · rw [h.out_of_ne (by rw [hk]; decide) hj]
        decide
    dsimp only
    rw [hout j, h.holder hused j]
    exact iff_of_false hheld (by decide)

theorem owner_step (h : WordOk init w) (hstep : WordStep k w w') {o : Option κ}
    (ho : ∀ j, o = some j ↔ w.stage j ≠ .out) :
    ∃ o', (o' = o ∨ o = none ∧ o' = some k ∨ o = some k ∧ o' = none) ∧ ∀ j, o' = some j ↔
      w'.stage j ≠ .out := by
  have hmoved : ∀ st : SpinStage, st ≠ .out → w.stage k ≠ .out → ∀ j,
      o = some j ↔ Function.update w.stage k st j ≠ .out := fun st hst hk j => by
    by_cases hj : j = k
    · rw [hj, Function.update_self]
      exact iff_of_true ((ho k).mpr hk) hst
    · rw [Function.update_of_ne hj]
      exact ho j
  cases hstep with
  | stay => exact ⟨o, .inl rfl, ho⟩
  | acquire hl =>
    have hout := h.out_of_unlocked hl
    have hnone : o = none := Option.eq_none_iff_forall_ne_some.mpr fun j hj => (ho j).mp hj (hout j)
    refine ⟨some k, .inr (.inl ⟨hnone, rfl⟩), fun j => ?_⟩
    dsimp only
    by_cases hj : j = k
    · rw [hj, Function.update_self]
      exact iff_of_true rfl (by decide)
    · rw [Function.update_of_ne hj, hout j]
      exact iff_of_false (fun he => hj (Option.some.inj he).symm) (by simp)
  | record hk => exact ⟨o, .inl rfl, hmoved .held (by decide) (by rw [hk]; decide)⟩
  | clear hk => exact ⟨o, .inl rfl, hmoved .releasing (by decide) (by rw [hk]; decide)⟩
  | release hk =>
    refine ⟨none, .inr (.inr ⟨(ho k).mpr (by rw [hk]; decide), rfl⟩), fun j =>
      iff_of_false (by simp) ?_⟩
    dsimp only
    by_cases hj : j = k
    · rw [hj, Function.update_self]
      simp
    · rw [Function.update_of_ne hj, h.out_of_ne (by rw [hk]; decide) hj]
      simp

end WordOk

end Word

section Hart

variable {κ ι : Type*} {init : ι → κ} {k : κ} {h h' : SpinHart ι} {l : ι}

/-- The pushes that belong to a call of `lock` or `unlock`. -/
def SpinPc.extra : SpinPc ι → ℕ
  | .testLocked _ | .testCpuid _ | .swap _ | .record _ | .popOff (some _) | .halted _ => 1
  | _ => 0

def SpinHart.At (init : ι → κ) (k : κ) (h : SpinHart ι) : Prop :=
  match h.top.pc with
  | .pushOff _ old => old = h.sie
  | .pushCount _ old => h.sie = false ∧ (h.noff = 0 → old = h.top.enabled)
  | .swap l | .record l => l ∉ h.top.locks
  | .checkLocked l | .checkCpuid l | .clear l | .release l => l ∈ h.top.locks
  | .popOff none => 0 < h.top.pushes
  | .halted why => ∃ l, why = .reacquire l ∧ (l ∈ h.top.locks ∨ k = init l)
  | _ => True

/-- What a hart keeps: interrupts are off as long as it has a push, and as its code has them if not. -/
structure HartOk (init : ι → κ) (k : κ) (h : SpinHart ι) : Prop where
  below : ∀ a ∈ h.below, a.Resting
  nodup : h.top.locks.Nodup
  noff : h.noff = h.top.locks.length + h.top.pushes + h.top.pc.extra
  off : h.noff ≠ 0 → h.sie = false ∧ h.intrEnable = h.top.enabled
  on : h.noff = 0 → (∀ l old, h.top.pc ≠ .pushCount l old) → h.sie = h.top.enabled
  at_pc : h.At init k

theorem HartOk.goto (hok : HartOk init k h) (pc : SpinPc ι) (hextra : pc.extra = h.top.pc.extra)
    (hcount : ∀ l old, h.top.pc ≠ .pushCount l old) (hat : (h.goto pc).At init k) :
    HartOk init k (h.goto pc) where
  below := hok.below
  nodup := hok.nodup
  noff := by rw [SpinHart.goto, hextra]; exact hok.noff
  off := hok.off
  on hn _ := hok.on hn hcount
  at_pc := hat

theorem HartOk.resting (hok : HartOk init k h) (hsie : h.sie = true) : h.top.Resting := by
  have hn : h.noff = 0 := by
    by_contra hn
    rw [(hok.off hn).1] at hsie
    cases hsie
  have hsum := hok.noff
  rw [hn] at hsum
  have hlocks : h.top.locks = [] := List.eq_nil_of_length_eq_zero (by omega)
  have hat := hok.at_pc
  have hon := hok.on hn
  rw [SpinHart.At] at hat
  cases hpc : h.top.pc with
  | idle => exact ⟨hlocks, by omega, (hon fun _ _ => by simp [hpc]).symm.trans hsie, .inl hpc⟩
  | pushGet l => exact ⟨hlocks, by omega, (hon fun _ _ => by simp [hpc]).symm.trans hsie,
    .inr (.inl ⟨l, hpc⟩)⟩
  | pushOff l old =>
    rw [hpc] at hat
    refine ⟨hlocks, by omega, (hon fun _ _ => by simp [hpc]).symm.trans hsie, .inr (.inr ⟨l, ?_⟩)⟩
    rw [hpc, show old = true from hat.trans hsie]
  | pushCount l old =>
    rw [hpc] at hat
    exact absurd (hsie.symm.trans hat.1) (by simp)
  | testLocked l | testCpuid l | swap l | record l | halted why =>
    rw [hpc, SpinPc.extra] at hsum
    omega
  | checkLocked l | checkCpuid l | clear l | release l =>
    rw [hpc, hlocks] at hat
    cases hat
  | popOff l =>
    cases l with
    | none =>
      rw [hpc] at hat
      simp only at hat
      omega
    | some l =>
      rw [hpc, SpinPc.extra] at hsum
      omega

theorem Activation.Resting.extra {a : Activation ι} (ha : a.Resting) : a.pc.extra = 0 := by
  obtain ⟨-, -, -, hpc | ⟨l, hpc⟩ | ⟨l, hpc⟩⟩ := ha <;> rw [hpc] <;> rfl

theorem HartOk.noff_eq_zero (hok : HartOk init k h) (hsie : h.sie = true) : h.noff = 0 := by
  have hrest := hok.resting hsie
  rw [hok.noff, hrest.extra, hrest.1, hrest.2.1]
  rfl

theorem HartOk.resume (hok : HartOk init k h) {a : Activation ι} {below : List (Activation ι)}
    (hn : h.noff = 0)
    (hbelow : h.below = a :: below) : HartOk init k { h with sie := true, top := a, below } := by
  have ha := hok.below a (by rw [hbelow]; exact List.mem_cons_self)
  obtain ⟨hlocks, hpushes, hen, hpc⟩ := ha
  refine ⟨fun b hb => hok.below b (by rw [hbelow]; exact List.mem_cons_of_mem _ hb), ?_, ?_,
    fun hne => absurd hn hne, fun _ _ => hen.symm, ?_⟩
  · rw [hlocks]
    exact List.nodup_nil
  · change h.noff = _
    rw [hn, hlocks, hpushes, Activation.Resting.extra ⟨hlocks, hpushes, hen, hpc⟩]
    rfl
  · rw [SpinHart.At]
    obtain hpc | ⟨l, hpc⟩ | ⟨l, hpc⟩ := hpc <;> rw [hpc]
    · trivial
    · trivial

theorem HartOk.calls {c : SpinCall ι} (hok : HartOk init k h) (hc : h.Calls c h') :
    HartOk init k h' := by
  have hidle : h.top.pc = .idle → ∀ l old, h.top.pc ≠ .pushCount l old := fun hpc _ _ => by simp [hpc]
  cases c with
  | lock l =>
    obtain ⟨hpc, rfl⟩ := hc
    exact hok.goto _ (by rw [hpc]; rfl) (hidle hpc) trivial
  | unlock l =>
    obtain ⟨hpc, hl, rfl⟩ := hc
    exact hok.goto _ (by rw [hpc]; rfl) (hidle hpc) hl
  | push =>
    obtain ⟨hpc, rfl⟩ := hc
    exact hok.goto _ (by rw [hpc]; rfl) (hidle hpc) trivial
  | pop =>
    obtain ⟨hpc, hpos, rfl⟩ := hc
    exact hok.goto _ (by rw [hpc]; rfl) (hidle hpc) hpos
  | intr on =>
    obtain ⟨hpc, hn, rfl⟩ := hc
    refine ⟨hok.below, hok.nodup, hok.noff, fun hne => absurd hn hne, fun _ _ => rfl, ?_⟩
    rw [SpinHart.At]
    simp only [hpc]
  | trap =>
    obtain ⟨hsie, rfl⟩ := hc
    refine ⟨fun a ha => ?_, List.nodup_nil, hok.noff_eq_zero hsie, fun hne =>
      absurd (hok.noff_eq_zero hsie) hne,
      fun _ _ => rfl, trivial⟩
    rcases List.mem_cons.mp ha with rfl | ha
    · exact hok.resting hsie
    · exact hok.below a ha
  | sret =>
    obtain ⟨-, hn, a, below, hbelow, rfl⟩ := hc
    exact hok.resume hn hbelow
  | switch enable below =>
    obtain ⟨hpc, hn, hbelow, rfl⟩ := hc
    have hoff := hok.off (by omega)
    refine ⟨hbelow, hok.nodup, hok.noff, fun _ => ⟨hoff.1, rfl⟩, fun hz => ?_, ?_⟩
    · change h.noff = 0 at hz
      omega
    · rw [SpinHart.At]
      simp only [hpc]

theorem HartOk.count (hok : HartOk init k h) {l : Option ι} {old : Bool}
    (hpc : h.top.pc = .pushCount l old) :
    HartOk init k (h.count l old) := by
  have hat := hok.at_pc
  rw [SpinHart.At, hpc] at hat
  have hn := hok.noff
  rw [hpc, show (SpinPc.pushCount l old).extra = 0 from rfl] at hn
  have hen : (if h.noff = 0 then old else h.intrEnable) = h.top.enabled := by
    split
    · rename_i hz
      exact hat.2 hz
    · rename_i hz
      exact (hok.off hz).2
  cases l with
  | none =>
    refine ⟨hok.below, hok.nodup, ?_, fun _ => ⟨hat.1, hen⟩, fun hz _ =>
      absurd hz (Nat.succ_ne_zero _), trivial⟩
    change h.noff + 1 = h.top.locks.length + (h.top.pushes + 1) + 0
    omega
  | some l =>
    refine ⟨hok.below, hok.nodup, ?_, fun _ => ⟨hat.1, hen⟩, fun hz _ =>
      absurd hz (Nat.succ_ne_zero _), trivial⟩
    change h.noff + 1 = h.top.locks.length + h.top.pushes + 1
    omega

theorem HartOk.pop (hok : HartOk init k h) {l : Option ι} (hpc : h.top.pc = .popOff l) :
    HartOk init k (h.pop l) ∧ (h.pop l).top.locks = h.top.locks ∧ (h.pop l).top.pc = .idle := by
  have hat := hok.at_pc
  rw [SpinHart.At, hpc] at hat
  have hn := hok.noff
  have hpos : h.noff ≠ 0 := by
    cases l with
    | none =>
      simp only at hat
      omega
    | some l =>
      rw [hpc, show (SpinPc.popOff (some l)).extra = 1 from rfl] at hn
      omega
  obtain ⟨hsie, hen⟩ := hok.off hpos
  have hpop : h.pop l = { h with
      sie := h.noff - 1 = 0 ∧ h.intrEnable
      noff := h.noff - 1
      top := { h.top with pc := .idle, pushes :=
        if l.isNone then h.top.pushes - 1 else h.top.pushes } } := by
    rw [SpinHart.pop, if_neg (by rw [hsie]; simp), if_neg (by omega)]
  rw [hpop]
  refine ⟨⟨hok.below, hok.nodup, ?_, fun hne => ⟨?_, hen⟩, fun hz _ => ?_, trivial⟩, rfl, rfl⟩
  · cases l with
    | none =>
      change h.noff - 1 = h.top.locks.length + (h.top.pushes - 1) + 0
      rw [hpc, show (SpinPc.popOff (none : Option ι)).extra = 0 from rfl] at hn
      simp only at hat
      omega
    | some l =>
      change h.noff - 1 = h.top.locks.length + h.top.pushes + 0
      rw [hpc, show (SpinPc.popOff (some l)).extra = 1 from rfl] at hn
      omega
  · change h.noff - 1 ≠ 0 at hne
    simp [hne]
  · change h.noff - 1 = 0 at hz
    simp [hz, hen]

variable [DecidableEq ι]

def Activation.stage (a : Activation ι) (l : ι) : SpinStage :=
  if a.pc = .record l then .recording
  else if a.pc = .release l then .releasing
  else if l ∈ a.locks then .held
  else .out

theorem stage_eq_held (a : Activation ι) (hr : a.pc ≠ .record l) (hl : a.pc ≠ .release l) :
    a.stage l = if l ∈ a.locks then .held else .out := by
  rw [Activation.stage, if_neg hr, if_neg hl]

theorem stage_congr {a b : Activation ι} (hlocks : a.locks = b.locks)
    (hpc : (a.pc ≠ .record l ∧ a.pc ≠ .release l) ∧ b.pc ≠ .record l ∧ b.pc ≠ .release l) :
    a.stage l = b.stage l := by
  rw [stage_eq_held a hpc.1.1 hpc.1.2, stage_eq_held b hpc.2.1 hpc.2.2, hlocks]

theorem Activation.Resting.stage {a : Activation ι} (ha : a.Resting) : a.stage l = .out := by
  obtain ⟨hlocks, -, -, hpc⟩ := ha
  have hne : a.pc ≠ .record l ∧ a.pc ≠ .release l := by
    obtain hpc | ⟨l, hpc⟩ | ⟨l, hpc⟩ := hpc <;> simp [hpc]
  rw [stage_eq_held a hne.1 hne.2, hlocks, if_neg (List.not_mem_nil)]

theorem HartOk.stage_calls {c : SpinCall ι} (hok : HartOk init k h) (hc : h.Calls c h') (l : ι) :
    h'.top.stage l = h.top.stage l := by
  cases c with
  | lock l' =>
    obtain ⟨hpc, rfl⟩ := hc
    exact stage_congr rfl (by simp [SpinHart.goto, hpc])
  | unlock l' =>
    obtain ⟨hpc, -, rfl⟩ := hc
    exact stage_congr rfl (by simp [SpinHart.goto, hpc])
  | push =>
    obtain ⟨hpc, rfl⟩ := hc
    exact stage_congr rfl (by simp [SpinHart.goto, hpc])
  | pop =>
    obtain ⟨hpc, -, rfl⟩ := hc
    exact stage_congr rfl (by simp [SpinHart.goto, hpc])
  | intr on =>
    obtain ⟨hpc, -, rfl⟩ := hc
    exact stage_congr rfl (by simp [hpc])
  | trap =>
    obtain ⟨hsie, rfl⟩ := hc
    rw [(hok.resting hsie).stage, stage_eq_held _ (by simp) (by simp), if_neg (List.not_mem_nil)]
  | sret =>
    obtain ⟨hpc, hn, a, below, hbelow, rfl⟩ := hc
    have hlocks : h.top.locks = [] := by
      have := hok.noff
      exact List.eq_nil_of_length_eq_zero (by omega)
    rw [(hok.below a (by rw [hbelow]; exact List.mem_cons_self)).stage,
      stage_eq_held _ (by simp [hpc]) (by simp [hpc]), hlocks, if_neg (List.not_mem_nil)]
  | switch enable below =>
    obtain ⟨hpc, -, -, rfl⟩ := hc
    exact stage_congr rfl (by simp [hpc])

end Hart

section State

variable {κ ι : Type*} [DecidableEq ι] {init : ι → κ} {s s' : SpinState κ ι} {k : κ}
  {h : SpinHart ι} {l : ι}

def SpinState.word (s : SpinState κ ι) (l : ι) : LockWord κ :=
  ⟨s.locked l, s.cpuid l, s.used l, fun k => (s.hart k).top.stage l⟩

structure SpinOk (init : ι → κ) (s : SpinState κ ι) : Prop where
  hart : ∀ k, HartOk init k (s.hart k)
  word : ∀ l, WordOk (init l) (s.word l)

theorem SpinOk.not_mem_of_unlocked (hok : SpinOk init s) (hl : s.locked l = false)
    (hr : (s.hart k).top.pc ≠ .record l) (hrel : (s.hart k).top.pc ≠ .release l) :
    l ∉ (s.hart k).top.locks := by
  have hout : (s.hart k).top.stage l = .out := (hok.word l).out_of_unlocked hl k
  rw [stage_eq_held _ hr hrel] at hout
  intro hmem
  rw [if_pos hmem] at hout
  cases hout

theorem SpinOk.cpuid_of_mem (hok : SpinOk init s) (hl : l ∈ (s.hart k).top.locks)
    (hr : (s.hart k).top.pc ≠ .record l) (hrel : (s.hart k).top.pc ≠ .release l) :
    s.locked l = true ∧ s.cpuid l = some k := by
  have hheld : (s.hart k).top.stage l = .held := by rw [stage_eq_held _ hr hrel, if_pos hl]
  have hword := hok.word l
  have hne : (s.word l).stage k ≠ .out := by
    change (s.hart k).top.stage l ≠ .out
    rw [hheld]
    decide
  exact ⟨hword.taken.mpr ⟨k, hne⟩, (hword.holder (hword.used_of_held (.inl hheld)) k).mpr hheld⟩

/-- The lock has a record of the hart: it holds the lock, or it has made it and none has recorded itself since. -/
theorem SpinOk.mem_of_cpuid (hok : SpinOk init s) (hc : s.cpuid l = some k)
    (hr : (s.hart k).top.pc ≠ .record l) (hrel : (s.hart k).top.pc ≠ .release l) :
    l ∈ (s.hart k).top.locks ∨ s.used l = false ∧ k = init l := by
  have hword := hok.word l
  cases hused : s.used l with
  | true =>
    refine .inl ?_
    have hheld : (s.hart k).top.stage l = .held := (hword.holder hused k).mp hc
    rw [stage_eq_held _ hr hrel] at hheld
    by_contra hmem
    rw [if_neg hmem] at hheld
    cases hheld
  | false => exact .inr ⟨rfl, Option.some.inj (hc.symm.trans (hword.fresh hused).1)⟩

theorem SpinState.Initial.ok (h : s.Initial init) : SpinOk init s where
  hart k := by
    obtain ⟨hn, htop, hbelow⟩ := h.hart k
    refine ⟨fun a ha => ?_, ?_, ?_, fun hne => absurd hn hne, fun _ _ => ?_, ?_⟩
    · rw [hbelow] at ha
      cases ha
    · rw [htop]
      exact List.nodup_nil
    · rw [hn, htop]
      rfl
    · rw [htop]
    · rw [SpinHart.At, htop]
      trivial
  word l := by
    have hout : ∀ k, (s.word l).stage k = .out := fun k => by
      simp [SpinState.word, Activation.stage, (h.hart k).2.1]
    refine ⟨iff_of_false ?_ fun ⟨k, hk⟩ => hk (hout k), fun i _ hi => absurd (hout i) hi, fun hused => ?_,
      fun _ => ⟨h.cpuid l, fun k => .inl (hout k)⟩⟩
    · rw [SpinState.word, h.locked l]
      simp
    · rw [SpinState.word, h.used l] at hused
      cases hused

structure SpinSafe (init : ι → κ) (s : SpinState κ ι) : Prop where
  /-- No two harts hold one lock. -/
  exclusive : ∀ l j k, l ∈ (s.hart j).top.locks → l ∈ (s.hart k).top.locks → j = k
  /-- A holder is not interrupted. -/
  off : ∀ k, (s.hart k).top.locks ≠ [] → (s.hart k).sie = false
  /-- `noff` counts the locks and pushes of the running code, which has its interrupts back without them. -/
  noff : ∀ k, (s.hart k).top.pc = .idle →
    (s.hart k).noff = (s.hart k).top.locks.length + (s.hart k).top.pushes ∧
    ((s.hart k).noff = 0 → (s.hart k).sie = (s.hart k).top.enabled)
  /-- No hart waits for a lock that it holds. -/
  wait : ∀ k l, (s.hart k).top.pc = .swap l → l ∉ (s.hart k).top.locks
  /-- Only a second `lock` panics, of a lock that the hart holds or has made. -/
  halted : ∀ k why, (s.hart k).top.pc = .halted why → ∃ l, why = .reacquire l ∧
    (l ∈ (s.hart k).top.locks ∨ k = init l)

theorem SpinOk.safe (hok : SpinOk init s) : SpinSafe init s where
  exclusive l j k hj hk := by
    have hne : ∀ k, l ∈ (s.hart k).top.locks → (s.word l).stage k ≠ .out := fun k hk => by
      change (s.hart k).top.stage l ≠ .out
      rw [Activation.stage, if_pos hk]
      split
      · decide
      · split <;> decide
    exact (hok.word l).unique j k (hne j hj) (hne k hk)
  off k hk := by
    have hn := (hok.hart k).noff
    have hpos := List.length_pos_of_ne_nil hk
    exact ((hok.hart k).off (by omega)).1
  noff k hpc := by
    have hn := (hok.hart k).noff
    rw [hpc] at hn
    exact ⟨hn, fun hz => (hok.hart k).on hz (by simp [hpc])⟩
  wait k l hpc := by
    have hat := (hok.hart k).at_pc
    rw [SpinHart.At, hpc] at hat
    exact hat
  halted k why hpc := by
    have hat := (hok.hart k).at_pc
    rw [SpinHart.At, hpc] at hat
    exact hat

variable [DecidableEq κ]

def SpinEvent.hart : SpinEvent κ ι → κ
  | next k | call k _ => k

/-- What a step of a hart keeps and what it does with the locks. -/
structure SpinMoved (init : ι → κ) (k : κ) (s s' : SpinState κ ι) : Prop where
  hart : ∀ j, HartOk init j (s'.hart j)
  word : ∀ l, WordStep k (s.word l) (s'.word l)

theorem SpinOk.moved (hok : SpinOk init s) (h : SpinMoved init k s s') : SpinOk init s' :=
  ⟨h.hart, fun l => (hok.word l).step (h.word l)⟩

theorem SpinOk.update (hok : SpinOk init s) (hh : HartOk init k h)
    (hs : s'.hart = Function.update s.hart k h)
    (hword : ∀ l, WordStep k (s.word l) ⟨s'.locked l, s'.cpuid l, s'.used l,
      Function.update (fun k => (s.hart k).top.stage l) k (h.top.stage l)⟩) :
        SpinMoved init k s s' where
  hart j := by
    rw [hs]
    by_cases hj : j = k
    · rw [hj, Function.update_self]
      exact hh
    · rw [Function.update_of_ne hj]
      exact hok.hart j
  word l := by
    have hstage : (fun j => (s'.hart j).top.stage l) =
        Function.update (fun k => (s.hart k).top.stage l) k (h.top.stage l) := by
      funext j
      rw [hs]
      by_cases hj : j = k
      · rw [hj, Function.update_self, Function.update_self]
      · rw [Function.update_of_ne hj, Function.update_of_ne hj]
    have hl := hword l
    rw [← hstage] at hl
    exact hl

theorem SpinOk.put (hok : SpinOk init s) (hh : HartOk init k h)
    (hstage : ∀ l, h.top.stage l = (s.hart k).top.stage l) : SpinMoved init k s (s.put k h) := by
  refine hok.update hh rfl fun l => ?_
  rw [hstage l, Function.update_eq_self]
  exact .stay

theorem SpinOk.updateAt (hok : SpinOk init s) (hh : HartOk init k h)
    (hs : s'.hart = Function.update s.hart k h) (l : ι)
    (hword : WordStep k (s.word l) ⟨s'.locked l, s'.cpuid l, s'.used l,
      Function.update (fun k => (s.hart k).top.stage l) k (h.top.stage l)⟩)
    (hother : ∀ l', l' ≠ l → s'.locked l' = s.locked l' ∧ s'.cpuid l' = s.cpuid l' ∧
      s'.used l' = s.used l' ∧ h.top.stage l' = (s.hart k).top.stage l') : SpinMoved init k s s' := by
  refine hok.update hh hs fun l' => ?_
  by_cases hll : l' = l
  · rw [hll]
    exact hword
  · obtain ⟨hlocked, hcpuid, hused, hstage⟩ := hother l' hll
    rw [hlocked, hcpuid, hused, hstage, Function.update_eq_self]
    exact .stay

theorem SpinOk.goto (hok : SpinOk init s) (pc : SpinPc ι)
    (hextra : pc.extra = (s.hart k).top.pc.extra)
    (hcount : ∀ l old, (s.hart k).top.pc ≠ .pushCount l old)
    (hpc : ∀ l, (pc ≠ .record l ∧ pc ≠ .release l) ∧
      (s.hart k).top.pc ≠ .record l ∧ (s.hart k).top.pc ≠ .release l)
    (hat : ((s.hart k).goto pc).At init k) : SpinMoved init k s (s.put k ((s.hart k).goto pc)) :=
  hok.put ((hok.hart k).goto pc hextra hcount hat) fun l => stage_congr rfl (hpc l)

theorem SpinOk.pushOff (hok : SpinOk init s) {l : Option ι} {old : Bool}
    (hpc : (s.hart k).top.pc = .pushOff l old) :
    SpinMoved init k s (s.put k { (s.hart k).goto (.pushCount l old) with sie := false }) := by
  have hh := hok.hart k
  have hat := hh.at_pc
  have hn := hh.noff
  rw [SpinHart.At, hpc] at hat
  rw [hpc] at hn
  refine hok.put ⟨hh.below, hh.nodup, hn, fun hne => ⟨rfl, (hh.off hne).2⟩,
    fun _ hcount => ?_, rfl, fun hz => ?_⟩ fun l' => stage_congr rfl (by simp [SpinHart.goto, hpc])
  · exact absurd rfl (hcount l old)
  · exact hat.trans (hh.on hz (by simp [hpc]))

theorem SpinOk.testCpuid (hok : SpinOk init s) (hpc : (s.hart k).top.pc = .testCpuid l) :
    SpinMoved init k s (s.put k ((s.hart k).goto
      (if s.cpuid l = some k then .halted (.reacquire l) else .swap l))) := by
  by_cases hc : s.cpuid l = some k
  · rw [if_pos hc]
    have hmem := hok.mem_of_cpuid hc (by simp [hpc]) (by simp [hpc])
    exact hok.goto _ (by rw [hpc]; rfl) (by simp [hpc]) (by simp [hpc])
      ⟨l, rfl, hmem.imp_right And.right⟩
  · rw [if_neg hc]
    have hmem : l ∉ (s.hart k).top.locks := fun hl =>
      hc (hok.cpuid_of_mem hl (by simp [hpc]) (by simp [hpc])).2
    exact hok.goto _ (by rw [hpc]; rfl) (by simp [hpc]) (by simp [hpc]) hmem

theorem SpinOk.swap (hok : SpinOk init s) (hpc : (s.hart k).top.pc = .swap l)
    (hl : s.locked l = false) : SpinMoved init k s
      { s.put k ((s.hart k).goto (.record l)) with locked := Function.update s.locked l true } := by
  have hat := (hok.hart k).at_pc
  rw [SpinHart.At, hpc] at hat
  refine hok.updateAt ((hok.hart k).goto (.record l) (by rw [hpc]; rfl) (by simp [hpc]) hat) rfl l ?_
    fun l' hll => ⟨Function.update_of_ne hll _ _, rfl, rfl, ?_⟩
  · have hst : ((s.hart k).goto (.record l)).top.stage l = .recording := by
      simp [Activation.stage, SpinHart.goto]
    dsimp only
    rw [hst, Function.update_self]
    exact .acquire hl
  · exact stage_congr rfl (by simp [SpinHart.goto, hpc, Ne.symm hll])

theorem SpinOk.record (hok : SpinOk init s) (hpc : (s.hart k).top.pc = .record l) :
    SpinMoved init k s { s.put k { s.hart k with
        top := { (s.hart k).top with pc := .idle, locks := l :: (s.hart k).top.locks } } with
      cpuid := Function.update s.cpuid l (some k)
      used := Function.update s.used l true } := by
  have hh := hok.hart k
  have hat := hh.at_pc
  have hn := hh.noff
  rw [SpinHart.At, hpc] at hat
  rw [hpc, show (SpinPc.record l).extra = 1 from rfl] at hn
  refine hok.updateAt (h := { s.hart k with
      top := { (s.hart k).top with pc := .idle, locks := l :: (s.hart k).top.locks } })
    ⟨hh.below, List.nodup_cons.mpr ⟨hat, hh.nodup⟩, ?_, hh.off, fun hz _ =>
      hh.on hz (by simp [hpc]), trivial⟩ rfl l ?_
    fun l' hll => ⟨rfl, Function.update_of_ne hll _ _, Function.update_of_ne hll _ _, ?_⟩
  · change (s.hart k).noff = (s.hart k).top.locks.length + 1 + (s.hart k).top.pushes + 0
    omega
  · have hst : (s.hart k).top.stage l = .recording := by simp [Activation.stage, hpc]
    dsimp only
    rw [stage_eq_held _ (by simp) (by simp), if_pos (List.mem_cons_self), Function.update_self,
      Function.update_self]
    exact .record hst
  · rw [stage_eq_held (s.hart k).top (by simp [hpc, Ne.symm hll]) (by simp [hpc]),
      stage_eq_held _ (by simp) (by simp)]
    simp only [List.mem_cons, hll, false_or]

theorem SpinOk.clear (hok : SpinOk init s) (hpc : (s.hart k).top.pc = .clear l) :
    SpinMoved init k s
      { s.put k ((s.hart k).goto (.release l)) with cpuid := Function.update s.cpuid l none } := by
  have hat := (hok.hart k).at_pc
  rw [SpinHart.At, hpc] at hat
  refine hok.updateAt ((hok.hart k).goto (.release l) (by rw [hpc]; rfl) (by simp [hpc]) hat) rfl l ?_
    fun l' hll => ⟨rfl, Function.update_of_ne hll _ _, rfl, ?_⟩
  · have hold : (s.hart k).top.stage l = .held := by
      rw [stage_eq_held _ (by simp [hpc]) (by simp [hpc]), if_pos hat]
    have hst : ((s.hart k).goto (.release l)).top.stage l = .releasing := by
      simp [Activation.stage, SpinHart.goto]
    dsimp only
    rw [hst, Function.update_self]
    exact .clear hold
  · exact stage_congr rfl (by simp [SpinHart.goto, hpc, Ne.symm hll])

theorem SpinOk.release (hok : SpinOk init s) (hpc : (s.hart k).top.pc = .release l) :
    SpinMoved init k s { s.put k { s.hart k with
        top := { (s.hart k).top with pc := .popOff (some l), locks := (s.hart k).top.locks.erase l } } with
      locked := Function.update s.locked l false } := by
  have hh := hok.hart k
  have hat := hh.at_pc
  have hn := hh.noff
  rw [SpinHart.At, hpc] at hat
  rw [hpc, show (SpinPc.release l).extra = 0 from rfl] at hn
  have hlen := List.length_erase_of_mem hat
  have hpos := List.length_pos_of_mem hat
  refine hok.updateAt (h := { s.hart k with
      top := { (s.hart k).top with pc := .popOff (some l), locks := (s.hart k).top.locks.erase l } })
    ⟨hh.below, hh.nodup.erase l, ?_, hh.off, fun hz _ => hh.on hz (by simp [hpc]), trivial⟩ rfl l ?_
    fun l' hll => ⟨Function.update_of_ne hll _ _, rfl, rfl, ?_⟩
  · change (s.hart k).noff = ((s.hart k).top.locks.erase l).length + (s.hart k).top.pushes + 1
    omega
  · have hold : (s.hart k).top.stage l = .releasing := by simp [Activation.stage, hpc]
    dsimp only
    rw [stage_eq_held _ (by simp) (by simp), if_neg (hh.nodup.not_mem_erase), Function.update_self]
    exact .release hold
  · rw [stage_eq_held (s.hart k).top (by simp [hpc]) (by simp [hpc, Ne.symm hll]),
      stage_eq_held _ (by simp) (by simp)]
    simp only [List.mem_erase_of_ne hll]

theorem SpinOk.next (hok : SpinOk init s) (hstep : s.next k = some s') : SpinMoved init k s s' := by
  have hh := hok.hart k
  have hat := hh.at_pc
  rw [SpinHart.At] at hat
  rw [SpinState.next] at hstep
  cases hpc : (s.hart k).top.pc with
  | idle | halted why =>
    simp only [hpc] at hstep
    cases hstep
  | pushGet l =>
    simp only [hpc, Option.some.injEq] at hstep
    rw [← hstep]
    exact hok.goto _ (by rw [hpc]; rfl) (by simp [hpc]) (by simp [hpc]) rfl
  | pushOff l old =>
    simp only [hpc, Option.some.injEq] at hstep
    rw [← hstep]
    exact hok.pushOff hpc
  | pushCount l old =>
    simp only [hpc, Option.some.injEq] at hstep
    rw [← hstep]
    refine hok.put (hh.count hpc) fun l' => ?_
    cases l <;> exact stage_congr rfl (by simp [SpinHart.count, hpc])
  | testLocked l =>
    simp only [hpc, Option.some.injEq] at hstep
    rw [← hstep]
    cases hl : s.locked l with
    | true => exact hok.goto _ (by rw [hpc]; rfl) (by simp [hpc]) (by simp [hpc]) trivial
    | false =>
      exact hok.goto _ (by rw [hpc]; rfl) (by simp [hpc]) (by simp [hpc])
        (hok.not_mem_of_unlocked hl (by simp [hpc]) (by simp [hpc]))
  | testCpuid l =>
    simp only [hpc, Option.some.injEq] at hstep
    rw [← hstep]
    exact hok.testCpuid hpc
  | swap l =>
    simp only [hpc] at hstep
    split at hstep
    · rw [← Option.some.inj hstep]
      exact ⟨hok.hart, fun _ => .stay⟩
    · rename_i hl
      rw [← Option.some.inj hstep]
      exact hok.swap hpc ((Bool.not_eq_true _).mp hl)
  | record l =>
    simp only [hpc, Option.some.injEq] at hstep
    rw [← hstep]
    exact hok.record hpc
  | checkLocked l =>
    simp only [hpc, Option.some.injEq] at hstep hat
    rw [← hstep, if_pos (hok.cpuid_of_mem hat (by simp [hpc]) (by simp [hpc])).1]
    exact hok.goto _ (by rw [hpc]; rfl) (by simp [hpc]) (by simp [hpc]) hat
  | checkCpuid l =>
    simp only [hpc, Option.some.injEq] at hstep hat
    rw [← hstep, if_pos (hok.cpuid_of_mem hat (by simp [hpc]) (by simp [hpc])).2]
    exact hok.goto _ (by rw [hpc]; rfl) (by simp [hpc]) (by simp [hpc]) hat
  | clear l =>
    simp only [hpc, Option.some.injEq] at hstep
    rw [← hstep]
    exact hok.clear hpc
  | release l =>
    simp only [hpc, Option.some.injEq] at hstep
    rw [← hstep]
    exact hok.release hpc
  | popOff l =>
    simp only [hpc, Option.some.injEq] at hstep
    rw [← hstep]
    obtain ⟨hpop, hlocks, hidle⟩ := hh.pop hpc
    exact hok.put hpop fun l' => stage_congr hlocks (by simp [hidle, hpc])

theorem SpinOk.step {e : SpinEvent κ ι} (hok : SpinOk init s) (hstep : SpinStep e s s') :
    SpinMoved init e.hart s s' := by
  cases e with
  | next k => exact hok.next hstep
  | call k c =>
    obtain ⟨h, hc, rfl⟩ := hstep
    exact hok.put ((hok.hart k).calls hc) ((hok.hart k).stage_calls hc)

theorem spin_ok {es : List (SpinEvent κ ι)} (h : s.Initial init) (hrun : Run SpinStep es s s') :
    SpinOk init s' :=
  hrun.keeps (fun _ _ _ hok hstep => hok.moved (hok.step hstep)) h.ok

def twoHarts : SpinState Bool Unit where
  hart _ := ⟨true, 0, false, ⟨.idle, [], 0, true⟩, []⟩
  locked _ := false
  cpuid _ := some false
  used _ := false

theorem initial_twoHarts : twoHarts.Initial fun _ => false :=
  ⟨fun _ => ⟨rfl, rfl, rfl⟩, fun _ => rfl, fun _ => rfl, fun _ => rfl⟩

def lockEvents (k : Bool) : List (SpinEvent Bool Unit) :=
  [.call k (.lock ()), .next k, .next k, .next k, .next k]

/-- Harts use their spinlocks safely in every run. -/
theorem spin_run {es : List (SpinEvent κ ι)} (h : s.Initial init) (hrun : Run SpinStep es s s') :
    SpinSafe init s' :=
  (spin_ok h hrun).safe

theorem spin_run_twoHarts : ∃ s,
    Run SpinStep (lockEvents true ++ [.next true, .next true]) twoHarts s ∧
    (s.hart true).top.locks = [()] ∧ SpinSafe (fun _ => false) s := by
  have hrun : Run SpinStep (lockEvents true ++ [.next true, .next true]) twoHarts _ :=
    ⟨_, ⟨_, ⟨rfl, rfl⟩, rfl⟩, _, rfl, _, rfl, _, rfl, _, rfl, _, rfl, _, rfl, rfl⟩
  exact ⟨_, hrun, rfl, spin_run initial_twoHarts hrun⟩

/-- `lock` panics if the hart holds the lock, and on the hart that has made the lock as long as the first to
take it has not recorded itself. -/
theorem reacquire_iff {es : List (SpinEvent κ ι)} {s₀ : SpinState κ ι} (h : s₀.Initial init)
    (hrun : Run SpinStep es s₀ s) (hpc : (s.hart k).top.pc = .testCpuid l) :
    (∃ s', s.next k = some s' ∧ (s'.hart k).top.pc = .halted (.reacquire l)) ↔
      l ∈ (s.hart k).top.locks ∨ s.used l = false ∧ k = init l := by
  have hok := spin_ok h hrun
  have hnext : s.next k = some (s.put k ((s.hart k).goto
      (if s.cpuid l = some k then .halted (.reacquire l) else .swap l))) := by
    rw [SpinState.next]
    simp only [hpc]
  rw [hnext]
  constructor
  · rintro ⟨s', hs', hpc'⟩
    refine hok.mem_of_cpuid ?_ (by simp [hpc]) (by simp [hpc])
    by_contra hc
    rw [← Option.some.inj hs', if_neg hc, SpinState.put] at hpc'
    simp [SpinHart.goto] at hpc'
  · intro hmem
    have hc : s.cpuid l = some k := by
      rcases hmem with hmem | ⟨hused, rfl⟩
      · exact (hok.cpuid_of_mem hmem (by simp [hpc]) (by simp [hpc])).2
      · exact ((hok.word l).fresh hused).1
    refine ⟨_, rfl, ?_⟩
    rw [if_pos hc, SpinState.put]
    simp [SpinHart.goto]

theorem reacquire_iff_twoHarts :
    ∃ s s', Run SpinStep (lockEvents true ++ .next true :: lockEvents false) twoHarts s ∧
    () ∉ (s.hart false).top.locks ∧ s.next false = some s' ∧
    (s'.hart false).top.pc = .halted (.reacquire ()) := by
  have hrun : Run SpinStep (lockEvents true ++ .next true :: lockEvents false) twoHarts _ :=
    ⟨_, ⟨_, ⟨rfl, rfl⟩, rfl⟩, _, rfl, _, rfl, _, rfl, _, rfl, _, rfl,
      _, ⟨_, ⟨rfl, rfl⟩, rfl⟩, _, rfl, _, rfl, _, rfl, _, rfl, rfl⟩
  obtain ⟨s', hnext, hpc⟩ := (reacquire_iff (l := ()) (k := false) initial_twoHarts hrun rfl).mpr
    (.inr ⟨rfl, rfl⟩)
  exact ⟨_, s', hrun, by decide, hnext, hpc⟩

def OwnerStep (e : SpinEvent κ ι) (o o' : ι → Option κ) : Prop :=
  ∀ l, o' l = o l ∨ o l = none ∧ o' l = some e.hart ∨ o l = some e.hart ∧ o' l = none

/-- Every run of the spinlocks is one of locks that are taken and given back at once. -/
theorem spin_owners {es : List (SpinEvent κ ι)} (h : s.Initial init) (hrun : Run SpinStep es s s') :
    ∃ o, Run OwnerStep es (fun _ => none) o ∧ ∀ l k, o l = some k ↔ (s'.word l).stage k ≠ .out := by
  have hstep : ∀ (e : SpinEvent κ ι) s s' (o : ι → Option κ),
      (SpinOk init s ∧ ∀ l k, o l = some k ↔ (s.word l).stage k ≠ .out) → SpinStep e s s' →
      ∃ o', OwnerStep e o o' ∧ SpinOk init s' ∧ ∀ l k, o' l = some k ↔
        (s'.word l).stage k ≠ .out := by
    rintro e s s' o ⟨hok, ho⟩ hstep
    have hmoved := hok.step hstep
    choose o' ho' using fun l => (hok.word l).owner_step (hmoved.word l) (ho l)
    exact ⟨o', fun l => (ho' l).1, hok.moved hmoved, fun l => (ho' l).2⟩
  have hout : ∀ l k, (none : Option κ) = some k ↔ (s.word l).stage k ≠ .out := fun l k => by
    simp [SpinState.word, Activation.stage, (h.hart k).2.1]
  obtain ⟨o, hruns, -, ho⟩ := hrun.simulates hstep ⟨h.ok, hout⟩
  exact ⟨o, hruns, ho⟩

theorem spin_owners_twoHarts :
    ∃ s o, Run SpinStep (lockEvents true ++ [.next true, .next true]) twoHarts s ∧
    Run OwnerStep (lockEvents true ++ [.next true, .next true]) (fun _ => none) o ∧
      o () = some true := by
  have hrun : Run SpinStep (lockEvents true ++ [.next true, .next true]) twoHarts _ :=
    ⟨_, ⟨_, ⟨rfl, rfl⟩, rfl⟩, _, rfl, _, rfl, _, rfl, _, rfl, _, rfl, _, rfl, rfl⟩
  obtain ⟨o, ho, howner⟩ := spin_owners initial_twoHarts hrun
  exact ⟨_, o, hrun, ho, (howner () true).mpr (by decide)⟩

end State

end StartOS
