import Mathlib.Algebra.BigOperators.Group.Finset.Basic
import StartOS.Os.Mmap

/-! # Mappings and the lengths that come and go

The place of a new mapping depends on the lengths that are live, so whether it
keeps clear of an older one is a matter of what was mapped and unmapped since
the older one was made, and of what rounding to pages adds. A ledger beside the
run keeps these sums.
-/

namespace StartOS

open Hoare

namespace Machine

variable {m m' : Machine} {i j p q : ℕ} {v : Vma} {c : MapCall} {length l : ℤ}

def slotLength (m : Machine) (i : ℕ) : ℤ :=
  match m.task.vma i with
  | some p => (m.vmaTable p).length
  | none => 0

def totalLength (m : Machine) : ℤ := ∑ i ∈ Finset.range nommapfile, m.slotLength i

/-- The length of the mapping that `sys_munmap` takes away. -/
def unmapLength (m : Machine) (addr : ℕ) : ℤ :=
  match m.slotOf addr with
  | some i =>
    match m.task.vma i with
    | some p => if (m.vmaTable p).ip.isSome then 0 else (m.vmaTable p).length
    | none => 0
  | none => 0

/-- The lengths live when a mapping was made, and those mapped and unmapped since. -/
structure Ledger where
  before : ℤ
  mapped : ℤ
  unmapped : ℤ

structure Logged where
  machine : Machine
  ledger : ℕ → Ledger

def pad (n : ℤ) : ℤ := roundUp n - n

/-- For a mapping of length `l` and a new one: what was unmapped since the old one was made and
what rounding has added is made up for by what was mapped and a page, or so much was unmapped that
the new one goes above the old one. -/
def Ledger.Spaced (g : Ledger) (l length : ℤ) : Prop :=
  g.unmapped + pad g.before + pad l < g.mapped + pgSize ∨
    g.mapped + l + roundUp length ≤ g.unmapped + pad g.before

instance (g : Ledger) (l length : ℤ) : Decidable (g.Spaced l length) := inferInstanceAs
  (Decidable (_ ∨ _))

namespace MapCall

def log (s : Logged) : MapCall → ℕ → Ledger
  | mmap length _ _ _ _ _, i =>
    if s.machine.freeSlot = some i then ⟨s.machine.totalLength, 0, 0⟩
    else { s.ledger i with mapped := (s.ledger i).mapped + length }
  | munmap addr, i =>
    { s.ledger i with unmapped := (s.ledger i).unmapped + s.machine.unmapLength addr }
  | touch _, i => s.ledger i

/-- No `int` of the call overflows: neither the sum of the live lengths nor the new length when it
is rounded up. -/
def InInt (s : Logged) : MapCall → Prop
  | mmap length _ _ _ _ _ => -2 ^ 31 ≤ s.machine.totalLength ∧ s.machine.totalLength < 2 ^ 31 ∧
      length + 4095 < 2 ^ 31
  | munmap _ => True
  | touch _ => True

def Spaced (s : Logged) : MapCall → Prop
  | mmap length _ _ _ _ _ => ∀ i < nommapfile, ∀ p ∈ s.machine.task.vma i,
      (s.machine.vmaTable p).ip = none → (s.ledger i).Spaced (s.machine.vmaTable p).length length
  | munmap _ => True
  | touch _ => True

instance (s : Logged) : (c : MapCall) → Decidable (c.InInt s)
  | mmap .. => inferInstanceAs (Decidable (_ ∧ _ ∧ _))
  | munmap _ => isTrue trivial
  | touch _ => isTrue trivial

instance (s : Logged) : (c : MapCall) → Decidable (c.Spaced s)
  | mmap .. => inferInstanceAs (Decidable (∀ i < nommapfile, ∀ p ∈ s.machine.task.vma i, _ → _))
  | munmap _ => isTrue trivial
  | touch _ => isTrue trivial

end MapCall

def EveryCall (P : Logged → MapCall → Prop) : List MapCall → Logged → Prop
  | [], _ => True
  | c :: cs, s =>
    match c.run s.machine with
    | .ok (_, m) => P s c ∧ EveryCall P cs ⟨m, c.log s⟩
    | .error _ => True

theorem everyCall_cons {P : Logged → MapCall → Prop} {cs : List MapCall} {s : Logged} :
    EveryCall P (c :: cs) s ↔
      ∀ m', c.run s.machine = .ok ((), m') → P s c ∧ EveryCall P cs ⟨m', c.log s⟩ := by
  rw [EveryCall]
  cases c.run s.machine with
  | error e => simp
  | ok r => simp [Prod.ext_iff]

instance decidableEveryCall {P : Logged → MapCall → Prop} [∀ s c, Decidable (P s c)] :
    (cs : List MapCall) → (s : Logged) → Decidable (EveryCall P cs s)
  | [], _ => isTrue trivial
  | c :: cs, s =>
    match h : c.run s.machine with
    | .ok (_, m) =>
      have : Decidable (EveryCall P cs ⟨m, c.log s⟩) := decidableEveryCall cs _
      decidable_of_iff (P s c ∧ EveryCall P cs ⟨m, c.log s⟩) (by rw [EveryCall, h])
    | .error _ => isTrue (by rw [EveryCall, h]; trivial)

def Logged.start (m : Machine) : Logged := ⟨m, fun _ => ⟨0, 0, 0⟩⟩

section Total

theorem vmaSum_eq (m : Machine) : m.vmaSum = toInt32 m.totalLength := by
  rw [vmaSum, totalLength]
  induction nommapfile with
  | zero => rfl
  | succ n ih =>
    rw [List.range_succ, List.foldl_append, ih, Finset.sum_range_succ, List.foldl_cons,
      List.foldl_nil, slotLength]
    cases m.task.vma n with
    | none => simp only [add_zero]
    | some p => exact Int.bmod_add_bmod

theorem totalLength_add (hi : i < nommapfile)
    (hold : ∀ j < nommapfile, j ≠ i → m'.slotLength j = m.slotLength j) :
    m'.totalLength + m.slotLength i = m.totalLength + m'.slotLength i := by
  have hmem : i ∈ Finset.range nommapfile := Finset.mem_range.mpr hi
  have hrest : ∑ j ∈ (Finset.range nommapfile).erase i, m'.slotLength j =
      ∑ j ∈ (Finset.range nommapfile).erase i, m.slotLength j := by
    refine Finset.sum_congr rfl fun j hj => ?_
    obtain ⟨hji, hj⟩ := Finset.mem_erase.mp hj
    exact hold j (Finset.mem_range.mp hj) hji
  rw [totalLength, totalLength, ← Finset.sum_erase_add _ _ hmem, ← Finset.sum_erase_add _ _ hmem,
    hrest]
  ring

theorem totalLength_addMap (hi : i < nommapfile) (hs : m.task.vma i = none)
    (hp : ∀ j < nommapfile, m.task.vma j ≠ some p) :
    (m.addMap i p v).totalLength = m.totalLength + v.length := by
  have hnew : (m.addMap i p v).slotLength i = v.length := by
    simp [slotLength, addMap]
  have hzero : m.slotLength i = 0 := by rw [slotLength, hs]
  rw [← hnew, ← totalLength_add hi, hzero, add_zero]
  intro j hj hji
  simp only [slotLength, addMap, Function.update_of_ne hji]
  cases hq : m.task.vma j with
  | none => rfl
  | some q =>
    have hqp : q ≠ p := fun he => hp j hj (he ▸ hq)
    simp only [Function.update_of_ne hqp]

theorem totalLength_removeMap (hinj : ∀ i j p, i < nommapfile → j < nommapfile →
    m.task.vma i = some p → m.task.vma j = some p → i = j) (hm : m.Mapped i p)
    (ram : MemAllocator) :
    (m.removeMap i p ram).totalLength + (m.vmaTable p).length = m.totalLength := by
  have hnew : (m.removeMap i p ram).slotLength i = 0 := by
    simp [slotLength, removeMap]
  have hlen : m.slotLength i = (m.vmaTable p).length := by rw [slotLength, hm.slot]
  rw [← hlen, totalLength_add hm.lt, hnew, add_zero]
  intro j hj hji
  simp only [slotLength, removeMap, Function.update_of_ne hji]
  cases hq : m.task.vma j with
  | none => rfl
  | some q =>
    have hqp : q ≠ p := fun he => hji (hinj j i p hj hm.lt (he ▸ hq) hm.slot)
    simp only [Function.update_of_ne hqp]

end Total

/-- The ledgers give the places of the mappings and the sum of the live lengths. -/
structure Tallied (s : Logged) : Prop where
  inv : MapInv s.machine
  addr : ∀ i p, s.machine.Mapped i p → ((s.machine.vmaTable p).addr : ℤ) =
    mapTop - roundUp (s.ledger i).before - roundUp (s.machine.vmaTable p).length
  total : ∀ i p, s.machine.Mapped i p →
    (s.ledger i).before + (s.machine.vmaTable p).length + (s.ledger i).mapped =
      (s.ledger i).unmapped + s.machine.totalLength

theorem Ledger.spaced_iff {g : Ledger} {total : ℤ}
    (h : g.before + l + g.mapped = g.unmapped + total) :
    g.Spaced l length ↔ roundUp g.before + roundUp l ≤ roundUp total ∨
      roundUp total + roundUp length ≤ roundUp g.before := by
  have hp : (pgSize : ℤ) = 4096 := by norm_num [pgSize]
  rw [Ledger.Spaced, pad, pad, hp]
  simp only [roundUp]
  omega

theorem Tallied.fits_iff {s : Logged} (h : Tallied s) (hint : c.InInt s) :
    c.Fits s.machine ↔ c.Spaced s := by
  cases c with
  | mmap length prot flags fd h0 hl =>
    obtain ⟨hlo, hhi, hlen⟩ := hint
    have hsum : s.machine.vmaSum = s.machine.totalLength := by
      rw [vmaSum_eq, toInt32_of_lt hlo hhi]
    have hround : pgRoundUpInt length = roundUp length := by
      rw [pgRoundUpInt, toInt32_of_lt (by omega) hlen, roundUp]
    have hone : ∀ i p, s.machine.Mapped i p →
        ((s.ledger i).Spaced (s.machine.vmaTable p).length length ↔
          mapTop - roundUp s.machine.totalLength - roundUp length + roundUp length ≤
              (s.machine.vmaTable p).addr ∨
            (s.machine.vmaTable p).addr + roundUp (s.machine.vmaTable p).length ≤
              mapTop - roundUp s.machine.totalLength - roundUp length) := by
      intro i p hm
      rw [Ledger.spaced_iff (h.total i p hm), h.addr i p hm]
      omega
    rw [MapCall.Fits, Machine.Fits, hsum, hround, MapCall.Spaced]
    constructor
    · exact fun hf i hi p hp hip => (hone i p ⟨hi, hp, hip⟩).mpr (hf i p ⟨hi, hp, hip⟩)
    · exact fun hs i p hm => (hone i p hm).mp (hs i hm.lt p hm.slot hm.ip)
  | munmap addr => exact Iff.rfl
  | touch ram => exact Iff.rfl

/-- A new mapping at the place that the live lengths give, with a ledger of its own. -/
theorem Tallied.addMap {s : Logged} (h : Tallied s) (hi : i < nommapfile)
    (hslot : s.machine.task.vma i = none) (hp : ∀ j < nommapfile, s.machine.task.vma j ≠ some p)
    (hv : v.ip = none) (hinv : MapInv (s.machine.addMap i p v))
    (haddr : (v.addr : ℤ) = mapTop - roundUp s.machine.totalLength - roundUp v.length) :
    Tallied ⟨s.machine.addMap i p v, fun j => if i = j then ⟨s.machine.totalLength, 0, 0⟩
      else { s.ledger j with mapped := (s.ledger j).mapped + v.length }⟩ := by
  have hself : (s.machine.addMap i p v).vmaTable p = v := Function.update_self ..
  have hsum := totalLength_addMap (v := v) hi hslot hp
  refine ⟨hinv, fun j q hm => ?_, fun j q hm => ?_⟩
  · rcases (mapped_addMap hi hp hv).mp hm with ⟨rfl, rfl⟩ | ⟨hji, hm⟩
    · simp only [if_true, hself]
      exact haddr
    · simp only [if_neg hji.symm, vmaTable_addMap_of_mapped hp hm]
      exact h.addr j q hm
  · rcases (mapped_addMap hi hp hv).mp hm with ⟨rfl, rfl⟩ | ⟨hji, hm⟩
    · simp only [if_true, hself, hsum]
      ring
    · have hold := h.total j q hm
      simp only [if_neg hji.symm, vmaTable_addMap_of_mapped hp hm, hsum]
      omega

theorem Tallied.removeMap {s : Logged} (h : Tallied s) (hm : s.machine.Mapped i p)
    (ram : MemAllocator) : Tallied ⟨s.machine.removeMap i p ram, fun j => { s.ledger j with
      unmapped := (s.ledger j).unmapped + (s.machine.vmaTable p).length }⟩ := by
  have hsum := totalLength_removeMap h.inv.inj hm ram
  refine ⟨h.inv.removeMap hm ram, fun j q hq => ?_, fun j q hq => ?_⟩
  · obtain ⟨hq, hv⟩ := mapped_removeMap h.inv.inj hm hq
    simp only [hv]
    exact h.addr j q hq
  · obtain ⟨hq, hv⟩ := mapped_removeMap h.inv.inj hm hq
    have hold := h.total j q hq
    simp only [hv]
    omega

theorem Tallied.step {s : Logged} (h : Tallied s) (hint : c.InInt s)
    (hok : c.run s.machine = .ok ((), m')) : Tallied ⟨m', c.log s⟩ := by
  have hinv := (MapCall.step_iff h.inv hok).1
  cases c with
  | mmap length prot flags fd h0 hl =>
    obtain ⟨hlo, hhi, hlen⟩ := hint
    rw [MapCall.run, bind_eq_ok] at hok
    obtain ⟨a, m₁, hok, hm'⟩ := hok
    cases hm'
    obtain ⟨i, p, v, hi, hnone, hp, -, hv, rfl, -, -, haddr, rfl, hfirst⟩ :=
      mapVma_ok (fun j q hm hc => (h.inv.pos j q hm).ne' hc.2) hok
    rw [vmaSum_eq, toInt32_of_lt hlo hhi, pgRoundUpInt, toInt32_of_lt (by omega) hlen] at haddr
    have hlog : MapCall.log s (.mmap v.length prot flags fd h0 hl) = fun j =>
        if i = j then ⟨s.machine.totalLength, 0, 0⟩
        else { s.ledger j with mapped := (s.ledger j).mapped + v.length } := by
      funext j
      simp only [MapCall.log, hfirst, Option.some.injEq]
    rw [hlog]
    exact h.addMap hi hnone hp hv hinv haddr
  | munmap addr =>
    rw [MapCall.run, bind_eq_ok] at hok
    obtain ⟨z, m₁, hok, hm'⟩ := hok
    cases hm'
    obtain ⟨i, p, hslot, hs, hcase⟩ := unmapVma_cases hok
    have hlen : s.machine.unmapLength addr =
        if (s.machine.vmaTable p).ip.isSome then 0 else (s.machine.vmaTable p).length := by
      rw [unmapLength, hslot]
      simp only [hs]
    rcases hcase with ⟨hip, rfl⟩ | ⟨ram, hm, -, rfl⟩
    · have hzero : s.machine.unmapLength addr = 0 := by
        rw [hlen, if_pos (Option.isSome_iff_ne_none.mpr hip)]
      refine ⟨hinv, h.addr, fun j q hm => ?_⟩
      simp only [MapCall.log, hzero, add_zero]
      exact h.total j q hm
    · have hlog : MapCall.log s (.munmap addr) = fun j => { s.ledger j with
          unmapped := (s.ledger j).unmapped + (s.machine.vmaTable p).length } := by
        funext j
        rw [MapCall.log, hlen, hm.ip, Option.isSome_none, if_neg (by simp)]
      rw [hlog]
      exact h.removeMap hm ram
  | touch ram =>
    cases hok
    exact ⟨hinv, fun i p hm => h.addr i p ⟨hm.1, hm.2, hm.3⟩, fun i p hm =>
      h.total i p ⟨hm.1, hm.2, hm.3⟩⟩

theorem forall_runMaps_cons {P : Machine → Prop} {cs : List MapCall} :
    (∀ pre post m', c :: cs = pre ++ post → runMaps pre m = .ok ((), m') → P m') ↔
      P m ∧ ∀ m₁, c.run m = .ok ((), m₁) →
        ∀ pre post m', cs = pre ++ post → runMaps pre m₁ = .ok ((), m') → P m' := by
  constructor
  · intro h
    refine ⟨h [] (c :: cs) m rfl rfl, fun m₁ hc pre post m' he hrun => ?_⟩
    exact h (c :: pre) post m' (by rw [he]; rfl) (runMaps_cons.mpr ⟨m₁, hc, hrun⟩)
  · rintro ⟨hm, h⟩ pre post m' he hrun
    cases pre with
    | nil =>
      cases hrun
      exact hm
    | cons d pre =>
      obtain ⟨rfl, htail⟩ := List.cons.inj he
      obtain ⟨m₁, hc, hrun⟩ := runMaps_cons.mp hrun
      exact h m₁ hc pre post m' htail hrun

/-- The mappings keep apart all along a run exactly when each is spaced from the live ones. -/
theorem Tallied.run_iff {s : Logged} (h : Tallied s) (hd : s.machine.MapsDisjoint)
    {calls : List MapCall} (hint : EveryCall (fun s c => c.InInt s) calls s) :
    (∀ pre post m', calls = pre ++ post → runMaps pre s.machine = .ok ((), m') → m'.MapsDisjoint) ↔
      EveryCall (fun s c => c.Spaced s) calls s := by
  induction calls generalizing s with
  | nil =>
    refine iff_of_true (fun pre post m' he hrun => ?_) trivial
    obtain ⟨rfl, -⟩ := List.append_eq_nil_iff.mp he.symm
    cases hrun
    exact hd
  | cons c cs ih =>
    rw [forall_runMaps_cons, everyCall_cons, and_iff_right hd]
    refine forall_congr' fun m₁ => forall_congr' fun hc => ?_
    obtain ⟨hic, hics⟩ := everyCall_cons.mp hint m₁ hc
    have hnext := h.step hic hc
    have hiff : m₁.MapsDisjoint ↔ c.Spaced s :=
      ((MapCall.step_iff h.inv hc).2 hd).trans (h.fits_iff hic)
    constructor
    · intro hall
      have hd₁ : m₁.MapsDisjoint := hall [] cs m₁ rfl rfl
      exact ⟨hiff.mp hd₁, (ih hnext hd₁ hics).mp hall⟩
    · rintro ⟨hs, hss⟩
      exact (ih hnext (hiff.mpr hs) hics).mpr hss

/-- In a run from a process with segments only in which no `int` overflows, the mappings of
`sys_mmap` use different pages in every state reached exactly when every mapping made on the way is
spaced from those that are live. -/
theorem mapsDisjoint_iff_spaced (h : OnlySegments m) (calls : List MapCall)
    (hint : EveryCall (fun s c => c.InInt s) calls (.start m)) :
    (∀ pre post m', calls = pre ++ post → runMaps pre m = .ok ((), m') → m'.MapsDisjoint) ↔
      EveryCall (fun s c => c.Spaced s) calls (.start m) := by
  have hno : ∀ i p, ¬ m.Mapped i p := fun i p hm => h.ip i p hm.lt hm.slot hm.ip
  have htally : Tallied (.start m) :=
    ⟨⟨h.inj, fun i p hm => absurd hm (hno i p), fun i p hm => absurd hm (hno i p),
      fun i p hm => absurd hm (hno i p), fun i p hm => absurd hm (hno i p)⟩,
      fun i p hm => absurd hm (hno i p), fun i p hm => absurd hm (hno i p)⟩
  exact htally.run_iff (fun i j p q _ hm _ => absurd hm (hno i p)) hint

def bare : Machine where
  ram := ⟨0x80400000, fun _ => 0, [], 0⟩
  vmaTable := fun _ => .zero
  task := ⟨0x80400000, fun _ => none, fun _ => none, 8192⟩

theorem onlySegments_bare : OnlySegments bare :=
  ⟨fun _ _ _ _ _ h => (by cases h), fun _ _ _ h => (by cases h)⟩

/-- Two mappings of whole pages, the newer one unmapped, and two shorter ones in its place. -/
def reuseMaps : List MapCall :=
  [.mmap 8192 3 0x22 (-1) (by norm_num) (by norm_num),
    .mmap 4096 3 0x22 (-1) (by norm_num) (by norm_num), .munmap 274873700352,
    .mmap 100 3 0x22 (-1) (by norm_num) (by norm_num),
    .mmap 300 3 0x22 (-1) (by norm_num) (by norm_num)]

theorem mapsDisjoint_iff_spaced_reuse : OnlySegments bare ∧
    (runMaps reuseMaps bare).isOk ∧ ∀ pre post m', reuseMaps = pre ++ post →
      runMaps pre bare = .ok ((), m') → m'.MapsDisjoint :=
  ⟨onlySegments_bare, by decide +kernel,
    (mapsDisjoint_iff_spaced onlySegments_bare reuseMaps (by decide +kernel)).mpr (by decide +kernel)⟩

def threeMaps : List MapCall :=
  List.replicate 3 (.mmap 1 3 0x22 (-1) (by norm_num) (by norm_num))

/-- Of three mappings of one byte the last two get the same page. -/
theorem not_mapsDisjoint_threeMaps : OnlySegments bare ∧
    ∃ m', runMaps threeMaps bare = .ok ((), m') ∧ ¬ m'.MapsDisjoint := by
  refine ⟨onlySegments_bare, ?_⟩
  have heval : (match runMaps threeMaps bare with
      | .ok (_, m) => decide (m.task.vma 1 = some 1 ∧ m.task.vma 2 = some 2 ∧
          (m.vmaTable 1).ip = none ∧ m.vmaTable 2 = m.vmaTable 1 ∧
          m.vmaTable 1 = ⟨274873704448, .prog, 1, 7, 0x22, none, 0⟩)
      | .error _ => false) = true := by decide +kernel
  cases hrun : runMaps threeMaps bare with
  | error e =>
    rw [hrun] at heval
    cases heval
  | ok r =>
    obtain ⟨⟨⟩, m'⟩ := r
    rw [hrun] at heval
    obtain ⟨h₁, h₂, hip, heq, hv⟩ := of_decide_eq_true heval
    refine ⟨m', rfl, fun hd => ?_⟩
    have := hd 1 2 1 2 (by norm_num) ⟨by norm_num [nommapfile], h₁, hip⟩
      ⟨by norm_num [nommapfile], h₂, heq ▸ hip⟩
    rw [heq, disjoint_self, hv, pages_eq (by norm_num) (by norm_num) rfl (by norm_num)] at this
    have hmem : 274873704448 ∈ Set.Ico 274873704448
        (274873704448 + (Machine.roundUp 1).toNat) := by norm_num [Machine.roundUp]
    rw [this] at hmem
    exact hmem

end Machine

end StartOS
