import Mathlib.Data.Finset.Prod
import StartOS.Lib.Slots
import StartOS.Os.Munmap
import StartOS.Os.Segments

/-! # The mappings of all processes

The slots of all processes refer to one pool of mappings. No entry of the pool is
in two slots, and an inode has at least as many references as there are mappings
of its file. A call fills an empty slot with an unused entry or clears a slot
together with its entry.
-/

namespace StartOS

open Hoare MemAllocator

namespace Vma

variable {v : Vma} {va : ℕ}

/-- The number of pages that `userUnmap` is called for. -/
def pageCount (v : Vma) : ℕ := unmapCount v.addr v.npages

/-- A mapping that `exit` can take down: it is not shared, and the pages that are unmapped with it
are pages of the user and all that it loads. -/
structure Closable (v : Vma) : Prop where
  notShared : v.flag % 2 ≠ 1
  used : ¬v.IsUnused
  aligned : v.Aligned
  access : v.prot &&& 7 ≠ 0
  user : v.pageCount = 0 ∨ v.addr + v.pageCount * pgSize ≤ userTop
  pages : ∀ va, v.Contains va → va < v.addr + v.pageCount * pgSize

theorem aligned_zero : Vma.zero.Aligned := rfl

theorem Aligned.pgRoundDown_eq (h : v.Aligned) : pgRoundDown v.addr = v.addr :=
  Nat.div_mul_cancel (Nat.dvd_of_mod_eq_zero h)

section Length

variable (hs : v.flag % 2 ≠ 1) (hu : ¬v.IsUnused) (ha : v.Aligned) (hp : v.prot &&& 7 ≠ 0)

include hs hu ha hp

theorem closable_of_nonneg (h0 : 0 ≤ v.length) (hl : v.length ≤ 2 ^ 31 - 4096)
    (hend : v.addr + v.length ≤ userTop) : v.Closable := by
  have hvals : userTop = 274877898752 ∧ pgSize = 4096 := by decide
  have hn : (v.npages : ℤ) = (v.length + 4095) / 4096 := by
    rw [npages_eq (by omega) hl, toU64]
    omega
  have hcount : v.pageCount = v.npages := by
    unfold pageCount unmapCount
    rw [hvals.2]
    omega
  have ha' := ha
  unfold Aligned at ha'
  rw [hvals.2] at ha'
  refine ⟨hs, hu, ha, hp, Or.inr ?_, fun va hc => ?_⟩
  · rw [hcount, hvals.1, hvals.2]
    omega
  · have hstop : (v.stop : ℤ) = v.addr + v.length := by
      unfold stop toU64
      omega
    have hva := hc.2
    unfold pgRoundUp at hva
    rw [hcount, hvals.2]
    omega

/-- A mapping of `sys_mmap` that is empty or has a negative length has no pages. -/
theorem closable_of_nonpos (hlo : 2 ^ 37 ≤ v.addr) (hhi : v.addr < 2 ^ 39)
    (hlen : -2 ^ 31 ≤ v.length) (h0 : v.length ≤ 0) : v.Closable := by
  have ha' := ha
  unfold Aligned at ha'
  rw [show pgSize = 4096 from rfl] at ha'
  refine ⟨hs, hu, ha, hp, Or.inl ?_, fun va hc => ?_⟩
  · unfold pageCount unmapCount
    rw [npages_eq hlen (by omega), toU64, show pgSize = 4096 from rfl]
    omega
  · have hstop : (v.stop : ℤ) = v.addr + v.length := by
      unfold stop toU64
      omega
    obtain ⟨h₁, h₂⟩ := hc
    unfold pgRoundDown at h₁
    unfold pgRoundUp at h₂
    omega

end Length

end Vma

/-- The part of the segment that is in the file ends below the pages of the kernel and its length
rounds up in an `int`; the segment gives some access. -/
def ProgHdr.Fits (ph : ProgHdr) : Prop :=
  ph.flags &&& 7 ≠ 0 ∧ ph.filesz + ph.pageOffset ≤ 2 ^ 31 - 4096 ∧ ph.vaddr + ph.filesz ≤ userTop

instance (ph : ProgHdr) : Decidable ph.Fits := inferInstanceAs (Decidable (_ ∧ _ ∧ _))

theorem ProgHdr.prot_ne_zero {ph : ProgHdr} (h : ph.flags &&& 7 ≠ 0) : ph.prot &&& 7 ≠ 0 := by
  have hsplit : ph.flags &&& 7 = (ph.flags &&& 1) ||| (ph.flags &&& 4) ||| (ph.flags &&& 2) := by
    rw [← Nat.and_or_distrib_left, ← Nat.and_or_distrib_left]
    rfl
  rw [hsplit] at h
  unfold ProgHdr.prot
  generalize ph.flags &&& 1 = x at h ⊢
  generalize ph.flags &&& 4 = y at h ⊢
  generalize ph.flags &&& 2 = z at h ⊢
  by_cases hx : x = 0
  · by_cases hy : y = 0
    · by_cases hz : z = 0
      · subst hx hy hz
        exact absurd rfl h
      · simp [hx, hy, hz]
    · by_cases hz : z = 0
      · simp [hx, hy, hz]
      · simp [hx, hy, hz]
  · by_cases hy : y = 0
    · by_cases hz : z = 0
      · simp [hx, hy, hz]
      · simp [hx, hy, hz]
    · by_cases hz : z = 0
      · simp [hx, hy, hz]
      · simp [hx, hy, hz]

theorem ProgHdr.Fits.closable {ph : ProgHdr} (h : ph.Fits) (ip : ℕ) : (ph.toVma ip).Closable := by
  obtain ⟨hacc, hlen, hend⟩ := h
  have hvals : userTop = 274877898752 ∧ pgSize = 4096 := by decide
  have hlength : (ph.toVma ip).length = (ph.filesz + ph.pageOffset : ℕ) := by
    have hmod : (ph.filesz + ph.pageOffset) % 2 ^ 64 = ph.filesz + ph.pageOffset :=
      Nat.mod_eq_of_lt (by omega)
    unfold ProgHdr.toVma
    dsimp only
    rw [hmod, toInt32_of_lt (by omega) (by omega)]
  have hround : pgRoundDown ph.vaddr % pgSize = 0 ∧
      pgRoundDown ph.vaddr + ph.pageOffset = ph.vaddr := by
    unfold ProgHdr.pageOffset pgRoundDown
    rw [hvals.2]
    omega
  apply Vma.closable_of_nonneg
  · change (2 : ℤ) % 2 ≠ 1
    decide
  · exact fun hu => Option.some_ne_none ip hu.1
  · exact hround.1
  · exact ProgHdr.prot_ne_zero hacc
  · rw [hlength]
    omega
  · rw [hlength]
    omega
  · change ((pgRoundDown ph.vaddr : ℕ) : ℤ) + (ph.toVma ip).length ≤ userTop
    rw [hlength]
    omega

/-- A new mapping that is not shared, with a length that rounds up in an `int` and, unless it is
empty, an end below the pages of the kernel. -/
def Machine.MayMap (m : Machine) (length flags : ℤ) : Prop :=
  flags % 2 ≠ 1 ∧ length ≤ 2 ^ 31 - 4096 ∧
    (0 < length → Machine.mapTop - Machine.roundUp m.vmaSum ≤ userTop)

namespace System

variable {s s' s'' s₀ : System} {extra : ℕ → ℕ} {k : ℕ × ℕ} {c i j p : ℕ} {v : Vma}

def mapSlots : Finset (ℕ × ℕ) := Finset.range ntask ×ˢ Finset.range nommapfile

def place (s : System) (k : ℕ × ℕ) : Option ℕ := (s.taskTable k.1).task.vma k.2

def inodeAt (s : System) (k : ℕ × ℕ) : Option ℕ := (s.place k).bind fun p => (s.vmaTable p).ip

def inodeRefs (s : System) (x : ℕ) : ℕ := Slots.count mapSlots s.inodeAt x

/-- Each mapping is in one slot, `exit` can take it down, and every inode has its references and
`extra` more. -/
structure Pool (s : System) (extra : ℕ → ℕ) : Prop where
  inside : ∀ k p, s.place k = some p → k ∈ mapSlots
  inj : ∀ k l p, s.place k = some p → s.place l = some p → k = l
  closable : ∀ k p, s.place k = some p → (s.vmaTable p).Closable
  aligned : ∀ p, (s.vmaTable p).Aligned
  refs : ∀ x, (s.inodeRefs x + extra x : ℤ) ≤ s.iref x

theorem mem_mapSlots (hi : i < ntask) (hj : j < nommapfile) : (i, j) ∈ mapSlots :=
  Finset.mem_product.mpr ⟨Finset.mem_range.mpr hi, Finset.mem_range.mpr hj⟩

structure SamePool (s s' : System) : Prop where
  current : s'.current = s.current
  place : s'.place = s.place
  vmaTable : s'.vmaTable = s.vmaTable
  iref : s'.iref = s.iref

namespace SamePool

theorem trans (h : SamePool s s') (h' : SamePool s' s'') : SamePool s s'' :=
  ⟨h'.current.trans h.current, h'.place.trans h.place, h'.vmaTable.trans h.vmaTable,
    h'.iref.trans h.iref⟩

theorem setProc {q : Proc} (hq : q.task.vma = (s.taskTable i).task.vma) :
    SamePool s (s.setProc i q) := by
  refine ⟨rfl, funext fun k => ?_, rfl, rfl⟩
  unfold System.place
  by_cases hk : k.1 = i
  · rw [hk, setProc_self, hq]
  · rw [setProc_of_ne hk]

theorem modifyProc {f : Proc → Proc} (h : modifyProc i f s = .ok ((), s'))
    (hf : ∀ q, (f q).task.vma = q.task.vma) : SamePool s s' := by
  cases h
  exact .setProc (hf _)

theorem onRam {α : Type} {call : MemAllocator → Kernel (α × MemAllocator)} {a : α}
    (h : onRam call s = .ok (a, s')) : SamePool s s' := by
  obtain ⟨-, hcall⟩ := onRam_sameTables h
  rw [onRam_of_ok hcall, Except.ok.injEq, Prod.mk.injEq] at h
  rw [← h.2]
  exact ⟨rfl, rfl, rfl, rfl⟩

end SamePool

/-- Slots may be cleared without their entries, and inodes may get references. -/
theorem Pool.of_le (h : s.Pool extra) (hplace : ∀ k p, s'.place k = some p → s.place k = some p)
    (hvma : s'.vmaTable = s.vmaTable) (href : ∀ x, s.iref x ≤ s'.iref x) : s'.Pool extra := by
  constructor
  · exact fun k p hk => h.inside k p (hplace k p hk)
  · exact fun k l p hk hl => h.inj k l p (hplace k p hk) (hplace l p hl)
  · rw [hvma]
    exact fun k p hk => h.closable k p (hplace k p hk)
  · rw [hvma]
    exact h.aligned
  · intro x
    have hle : s'.inodeRefs x ≤ s.inodeRefs x := by
      apply Slots.count_le_count
      intro k _ hk
      unfold inodeAt at hk ⊢
      rw [hvma] at hk
      obtain ⟨p, hp, hip⟩ := Option.bind_eq_some_iff.mp hk
      rw [hplace k p hp]
      exact hip
    have := h.refs x
    have := href x
    omega

theorem Pool.same (h : s.Pool extra) (hs : SamePool s s') : s'.Pool extra := by
  refine h.of_le (fun k p hk => ?_) hs.vmaTable fun x => ?_
  · rwa [hs.place] at hk
  · rw [hs.iref]

theorem Pool.refs_pos (h : s.Pool extra) (hk : s.place k = some p) {x : ℕ}
    (hx : (s.vmaTable p).ip = some x) : 1 ≤ s.iref x := by
  have hpos : 0 < s.inodeRefs x :=
    Slots.count_pos (h.inside k p hk) (by unfold inodeAt; rw [hk]; exact hx)
  have := h.refs x
  omega

theorem Pool.not_unused (h : s.Pool extra) (hp : (s.vmaTable p).IsUnused) (k : ℕ × ℕ) :
    s.place k ≠ some p := fun hk => (h.closable k p hk).used hp

theorem Pool.mapped_used (h : s.Pool extra) (j q : ℕ) (hm : s.machine.Mapped j q) :
    ¬((s.machine.vmaTable q).addr = 0 ∧ (s.machine.vmaTable q).length = 0) := fun hc =>
  (h.closable (s.current, j) q hm.slot).used ⟨hm.ip, hc.1, hc.2⟩

theorem Pool.other_used (h : s.Pool extra) (hp : (s.vmaTable p).IsUnused)
    (hvma : s'.vmaTable = Function.update s.vmaTable p v) {l : ℕ × ℕ} {q : ℕ}
    (hl : s.place l = some q) : s'.vmaTable q = s.vmaTable q := by
  have hqp : q ≠ p := by
    rintro rfl
    exact h.not_unused hp l hl
  rw [hvma, Function.update_of_ne hqp]

theorem Pool.inodeAt_fill (h : s.Pool extra) (hp : (s.vmaTable p).IsUnused)
    (hplace : s'.place = Function.update s.place k (some p))
    (hvma : s'.vmaTable = Function.update s.vmaTable p v) :
    s'.inodeAt = Function.update s.inodeAt k v.ip := by
  funext l
  unfold inodeAt
  rw [hplace]
  by_cases hlk : l = k
  · rw [hlk, Function.update_self, Function.update_self, hvma]
    exact congrArg Vma.ip (Function.update_self ..)
  · rw [Function.update_of_ne hlk, Function.update_of_ne hlk]
    cases hl : s.place l with
    | none => rfl
    | some q => exact congrArg Vma.ip (h.other_used hp hvma hl)

theorem inodeRefs_fill (hk : k ∈ mapSlots) (hempty : s.inodeAt k = none)
    (hat : s'.inodeAt = Function.update s.inodeAt k v.ip) (x : ℕ) :
    s'.inodeRefs x = s.inodeRefs x + if v.ip = some x then 1 else 0 := by
  unfold inodeRefs
  rw [hat]
  cases hip : v.ip with
  | none => rw [if_neg (by simp), ← hempty, Function.update_eq_self, Nat.add_zero]
  | some y =>
    rw [Slots.count_fill (a := y) (b := x) hk hempty]
    by_cases hxy : x = y
    · rw [if_pos hxy, if_pos (by rw [hxy])]
    · rw [if_neg hxy, if_neg fun he => hxy (Option.some.inj he).symm]

theorem Pool.fill (h : s.Pool extra) (hk : k ∈ mapSlots) (hnone : s.place k = none)
    (hp : (s.vmaTable p).IsUnused) (hv : v.Closable)
    (hplace : s'.place = Function.update s.place k (some p))
    (hvma : s'.vmaTable = Function.update s.vmaTable p v)
    (href : ∀ x, s.iref x + (if v.ip = some x then 1 else 0) ≤ s'.iref x) : s'.Pool extra := by
  have hold : ∀ l q, s'.place l = some q → (l = k ∧ q = p) ∨ (l ≠ k ∧ s.place l = some q) := by
    intro l q hl
    rw [hplace] at hl
    by_cases hlk : l = k
    · rw [hlk, Function.update_self] at hl
      exact Or.inl ⟨hlk, (Option.some.inj hl).symm⟩
    · rw [Function.update_of_ne hlk] at hl
      exact Or.inr ⟨hlk, hl⟩
  have hempty : s.inodeAt k = none := by
    unfold inodeAt
    rw [hnone]
    rfl
  constructor
  · intro l q hl
    rcases hold l q hl with ⟨rfl, -⟩ | ⟨-, hl⟩
    · exact hk
    · exact h.inside l q hl
  · intro l m q hl hm
    rcases hold l q hl with ⟨rfl, rfl⟩ | ⟨-, hl⟩
    · rcases hold m q hm with ⟨rfl, -⟩ | ⟨-, hm⟩
      · rfl
      · exact absurd hm (h.not_unused hp m)
    · rcases hold m q hm with ⟨-, rfl⟩ | ⟨-, hm⟩
      · exact absurd hl (h.not_unused hp l)
      · exact h.inj l m q hl hm
  · intro l q hl
    rcases hold l q hl with ⟨-, rfl⟩ | ⟨-, hl⟩
    · rw [hvma, Function.update_self]
      exact hv
    · rw [h.other_used hp hvma hl]
      exact h.closable l q hl
  · intro q
    rw [hvma]
    by_cases hq : q = p
    · rw [hq, Function.update_self]
      exact hv.aligned
    · rw [Function.update_of_ne hq]
      exact h.aligned q
  · intro x
    have hx := h.refs x
    have hx' := href x
    rw [inodeRefs_fill hk hempty (h.inodeAt_fill hp hplace hvma)]
    push_cast
    omega

theorem Pool.clear (h : s.Pool extra) (hk : s.place k = some p)
    (hplace : s'.place = Function.update s.place k none)
    (hvma : s'.vmaTable = Function.update s.vmaTable p .zero)
    (href : ∀ x, s.iref x ≤ s'.iref x + if (s.vmaTable p).ip = some x then 1 else 0) :
    s'.Pool extra := by
  have hold : ∀ l q, s'.place l = some q → l ≠ k ∧ s.place l = some q ∧
      s'.vmaTable q = s.vmaTable q := by
    intro l q hl
    rw [hplace] at hl
    have hlk : l ≠ k := by
      rintro rfl
      rw [Function.update_self] at hl
      cases hl
    rw [Function.update_of_ne hlk] at hl
    refine ⟨hlk, hl, ?_⟩
    have hqp : q ≠ p := by
      rintro rfl
      exact hlk (h.inj l k q hl hk)
    rw [hvma, Function.update_of_ne hqp]
  have hat : s'.inodeAt = Function.update s.inodeAt k none := by
    funext l
    unfold inodeAt
    by_cases hlk : l = k
    · rw [hlk, hplace, Function.update_self, Function.update_self]
      rfl
    · rw [Function.update_of_ne hlk]
      have hl : s'.place l = s.place l := by rw [hplace, Function.update_of_ne hlk]
      cases hq : s'.place l with
      | none =>
        rw [← hl, hq]
        rfl
      | some q =>
        rw [← hl, hq]
        exact congrArg Vma.ip (hold l q hq).2.2
  constructor
  · exact fun l q hl => h.inside l q (hold l q hl).2.1
  · exact fun l m q hl hm => h.inj l m q (hold l q hl).2.1 (hold m q hm).2.1
  · intro l q hl
    rw [(hold l q hl).2.2]
    exact h.closable l q (hold l q hl).2.1
  · intro q
    rw [hvma]
    by_cases hq : q = p
    · rw [hq, Function.update_self]
      exact Vma.aligned_zero
    · rw [Function.update_of_ne hq]
      exact h.aligned q
  · intro x
    have hx := h.refs x
    have hx' := href x
    have hself : s.inodeAt k = (s.vmaTable p).ip := by
      unfold inodeAt
      rw [hk]
      rfl
    unfold inodeRefs at hx ⊢
    rw [hat]
    cases hip : (s.vmaTable p).ip with
    | none =>
      rw [hip, if_neg (by simp)] at hx'
      rw [hip] at hself
      rw [← hself, Function.update_eq_self]
      omega
    | some y =>
      rw [hip] at hx' hself
      have hcount := Slots.count_empty (b := x) (h.inside k p hk) hself
      by_cases hxy : x = y
      · subst hxy
        rw [if_pos rfl] at hx' hcount
        omega
      · rw [if_neg (fun he => hxy (Option.some.inj he).symm)] at hx'
        rw [if_neg hxy] at hcount
        omega

/-- Slot `j` of process `c` is cleared with its entry `p`, and the inodes have the references
`iref`. -/
def dropMap (s : System) (c j p : ℕ) (iref : ℕ → ℤ) : System :=
  { s.setProc c { s.taskTable c with task := { (s.taskTable c).task with
      vma := Function.update (s.taskTable c).task.vma j none } } with
    iref := iref
    vmaTable := Function.update s.vmaTable p .zero }

theorem place_setVma {q : Proc} {x : Option ℕ}
    (hq : q.task.vma = Function.update (s.taskTable c).task.vma j x) :
    (s.setProc c q).place = Function.update s.place (c, j) x := by
  funext k
  obtain ⟨i, l⟩ := k
  unfold place
  by_cases hi : i = c
  · subst hi
    rw [setProc_self, hq]
    by_cases hl : l = j
    · subst hl
      rw [Function.update_self, Function.update_self]
    · have hne : (i, l) ≠ (i, j) := fun he => hl (congrArg Prod.snd he)
      rw [Function.update_of_ne hl, Function.update_of_ne hne]
  · have hne : (i, l) ≠ (c, j) := fun he => hi (congrArg Prod.fst he)
    rw [setProc_of_ne hi, Function.update_of_ne hne]

theorem Pool.vmaFree (h : s.Pool extra) (hk : s.place (c, j) = some p) :
    ∃ iref, (do
      StartOS.vmaFree p
      modifyProc c fun q => { q with task := { q.task with
        vma := Function.update q.task.vma j none } } : OsM Unit) s = .ok ((), s.dropMap c j p iref) ∧
      (s.dropMap c j p iref).Pool extra := by
  obtain ⟨iref, hrun, hiref⟩ := vmaFree_of_refs fun x hx => h.refs_pos hk hx
  refine ⟨iref, bind_of_ok hrun, h.clear hk ?_ rfl hiref⟩
  exact place_setVma (s := s) rfl

theorem Pool.freeProgVmas (c : ℕ) (is : List ℕ) :
    Keeps (fun s => s.Pool extra ∧ s.current = i) (freeProgVmas c is) := by
  induction is with
  | nil => exact .pure ()
  | cons j is ih =>
    rintro s a s' ⟨h, hc⟩ hok
    rw [StartOS.freeProgVmas, get_bind] at hok
    cases hj : (s.taskTable c).task.vma j with
    | none =>
      rw [hj] at hok
      exact ih ⟨h, hc⟩ hok
    | some p =>
      rw [hj] at hok
      dsimp only at hok
      split at hok
      · obtain ⟨iref, hrun, h'⟩ := h.vmaFree (show s.place (c, j) = some p from hj)
        obtain ⟨⟨⟩, s₁, hfree, hset⟩ := bind_eq_ok.mp hrun
        rw [bind_of_ok hfree, bind_of_ok hset] at hok
        exact ih ⟨h', hc⟩ hok
      · exact ih ⟨h, hc⟩ hok

theorem inodeDup_refs (iref : ℕ → ℤ) (ip x : ℕ) :
    iref x + (if some ip = some x then 1 else 0) = Function.update iref ip (iref ip + 1) x := by
  by_cases hx : x = ip
  · rw [hx, if_pos rfl, Function.update_self]
  · rw [if_neg (fun he => hx (Option.some.inj he).symm), Function.update_of_ne hx, add_zero]

/-- `LazyLoadSeg` notes the segment in an unused entry and an empty slot. -/
theorem lazyLoadSeg_ok {ip : ℕ} {ph : ProgHdr} (h : lazyLoadSeg ip ph s = .ok ((), s')) :
    ∃ p i, p ∈ s.unusedVmas ∧ i ∈ s.emptySlots ∧ s' = noteSegment s ip ph p i := by
  unfold lazyLoadSeg at h
  obtain ⟨p, s₁, halloc, h₁⟩ := bind_eq_ok.mp h
  obtain ⟨rfl, hp⟩ := onMachine_allocVma halloc
  unfold inodeDup at h₁
  rw [bind_assoc, modify_bind, pure_bind, modify_bind, get_bind] at h₁
  have hslot : ∀ vmas refs, ({ s₁ with vmaTable := vmas, iref := refs } : System).machine.freeSlot =
    s₁.machine.freeSlot := fun _ _ => rfl
  cases hi : s₁.machine.freeSlot with
  | none =>
    simp only [hslot, hi] at h₁
    cases h₁
  | some i =>
    simp only [hslot, hi] at h₁
    cases h₁
    exact ⟨p, i, mem_of_freeVma hp, mem_of_freeSlot hi, rfl⟩

theorem Pool.noteSegment (h : s.Pool extra) (hc : s.current < ntask) {ip : ℕ} {ph : ProgHdr}
    (hfit : ph.Fits) (hp : p ∈ s.unusedVmas) (hi : i ∈ s.emptySlots) :
    (noteSegment s ip ph p i).Pool extra := by
  obtain ⟨hlt, hnone⟩ := Finset.mem_filter.mp hi
  refine h.fill (mem_mapSlots hc (Finset.mem_range.mp hlt)) hnone (Finset.mem_filter.mp hp).2
    (hfit.closable ip) ?_ rfl fun x => le_of_eq (inodeDup_refs s.iref ip x)
  exact place_setVma (s := s) rfl

/-- The segments that `exec` can load from a file fit. -/
def SegmentsFit (content : List UInt8) : Prop :=
  let elf := ElfHdr.ofBytes (inodeBytes content 0 elfHdrSize)
  ∀ i < elf.phnum, ∀ ph, readProgHdr content elf.phoff i = some ph → ph.IsLoad →
    ¬ph.IsBad → ph.Fits

theorem Pool.loadSegments {ip phoff : ℕ} {content : List UInt8} (hc : c < ntask) (n : ℕ) :
    ∀ i sz, (∀ j, i ≤ j → j < i + n → ∀ ph, readProgHdr content phoff j = some ph → ph.IsLoad →
      ¬ph.IsBad → ph.Fits) → Keeps (fun s => s.Pool extra ∧ s.current = c)
        (loadSegments ip content phoff n i sz) := by
  induction n with
  | zero => exact fun i sz _ => .pure _
  | succ n ih =>
    intro i sz hfit
    have hnext : ∀ j, i + 1 ≤ j → j < i + 1 + n → ∀ ph, readProgHdr content phoff j = some ph →
        ph.IsLoad → ¬ph.IsBad → ph.Fits := fun j h₁ h₂ => hfit j (by omega) (by omega)
    rw [StartOS.loadSegments]
    cases hph : readProgHdr content phoff i with
    | none => exact .pure _
    | some ph =>
      dsimp only
      split
      · exact ih (i + 1) sz hnext
      · rename_i hload
        split
        · exact .pure _
        · rename_i hbad
          refine .bind ?_ fun _ => ih (i + 1) _ hnext
          rintro s ⟨⟩ s' ⟨h, hcur⟩ hok
          obtain ⟨p, k, hp, hk, rfl⟩ := lazyLoadSeg_ok hok
          refine ⟨h.noteSegment (hcur ▸ hc) ?_ hp hk, hcur⟩
          exact hfit i le_rfl (by omega) ph hph (not_not.mp hload) hbad

section Fork

variable {parent child : ℕ}

theorem Pool.dupVma (h : s.Pool extra) (hc : child < ntask) (hj : j < nommapfile)
    (hchild : s.place (child, j) = none) {is : List ℕ}
    (hok : dupVmas parent child (j :: is) s = .ok ((), s')) :
    ∃ s₁, s₁.Pool extra ∧ (∀ k, k ≠ (child, j) → s₁.place k = s.place k) ∧
      dupVmas parent child is s₁ = .ok ((), s') := by
  rw [dupVmas, get_bind] at hok
  cases hp : (s.taskTable parent).task.vma j with
  | none =>
    rw [hp] at hok
    obtain ⟨⟨⟩, s₁, hset, hrest⟩ := bind_eq_ok.mp hok
    have hplace : s₁.place = Function.update s.place (child, j) none := by
      cases hset
      exact place_setVma rfl
    have hsame : s₁.vmaTable = s.vmaTable ∧ s₁.iref = s.iref := by
      cases hset
      exact ⟨rfl, rfl⟩
    refine ⟨s₁, h.of_le (fun k q hk => ?_) hsame.1 fun x => by rw [hsame.2], fun k hk => ?_, hrest⟩
    · rwa [hplace, ← hchild, Function.update_eq_self] at hk
    · rw [hplace, Function.update_of_ne hk]
  | some p =>
    rw [hp] at hok
    obtain ⟨q, s₁, halloc, h₁⟩ := bind_eq_ok.mp hok
    obtain ⟨rfl, hq⟩ := onMachine_allocVma halloc
    have hunused := (Finset.mem_filter.mp (mem_of_freeVma hq)).2
    have hclosable := h.closable (parent, j) p hp
    rw [modify_bind] at h₁
    have hlast : ∀ s₂ : System, s₂.place = s₁.place →
        s₂.vmaTable = Function.update s₁.vmaTable q (s₁.vmaTable p) →
        (∀ x, s₁.iref x + (if (s₁.vmaTable p).ip = some x then 1 else 0) ≤ s₂.iref x) →
        (do modifyProc child fun pr => { pr with task := { pr.task with
              vma := Function.update pr.task.vma j (some q) } }
            dupVmas parent child is : OsM Unit) s₂ = .ok ((), s') →
        ∃ s₃, s₃.Pool extra ∧ (∀ k, k ≠ (child, j) → s₃.place k = s₁.place k) ∧
          dupVmas parent child is s₃ = .ok ((), s') := by
      intro s₂ hplace hvma href hrest
      obtain ⟨⟨⟩, s₃, hset, hrest⟩ := bind_eq_ok.mp hrest
      have hplace₃ : s₃.place = Function.update s₁.place (child, j) (some q) := by
        cases hset
        rw [← hplace]
        exact place_setVma rfl
      have hsame : s₃.vmaTable = s₂.vmaTable ∧ s₃.iref = s₂.iref := by
        cases hset
        exact ⟨rfl, rfl⟩
      refine ⟨s₃, ?_, fun k hk => ?_, hrest⟩
      · exact h.fill (mem_mapSlots hc hj) hchild hunused hclosable hplace₃
          (hsame.1.trans hvma) fun x => by rw [hsame.2]; exact href x
      · rw [hplace₃, Function.update_of_ne hk]
    cases hip : (s₁.vmaTable p).ip with
    | none =>
      rw [hip] at h₁
      refine hlast { s₁ with vmaTable := Function.update s₁.vmaTable q (s₁.vmaTable p) } rfl rfl
        (fun x => ?_) h₁
      rw [hip, if_neg (by simp), add_zero]
    | some ip =>
      rw [hip] at h₁
      refine hlast { s₁ with
        vmaTable := Function.update s₁.vmaTable q (s₁.vmaTable p)
        iref := Function.update s₁.iref ip (s₁.iref ip + 1) } rfl rfl (fun x => ?_) h₁
      rw [hip]
      exact le_of_eq (inodeDup_refs s₁.iref ip x)

/-- The mappings of the parent are copied for the child, which has none. -/
theorem Pool.dupVmas (hc : child < ntask) (is : List ℕ) :
    ∀ {s : System}, s.Pool extra → is.Nodup → (∀ j ∈ is, j < nommapfile) →
      (∀ j ∈ is, s.place (child, j) = none) → dupVmas parent child is s = .ok ((), s') →
      s'.Pool extra := by
  induction is with
  | nil =>
    intro s h _ _ _ hok
    cases hok
    exact h
  | cons j is ih =>
    intro s h hnodup hlt hnone hok
    obtain ⟨s₁, h₁, hplace, hrest⟩ := h.dupVma hc (hlt j List.mem_cons_self)
      (hnone j List.mem_cons_self) hok
    refine ih h₁ hnodup.of_cons (fun x hx => hlt x (List.mem_cons_of_mem j hx)) (fun x hx => ?_) hrest
    have hne : (child, x) ≠ (child, j) := by
      rintro ⟨⟩
      exact (List.nodup_cons.mp hnodup).1 hx
    rw [hplace _ hne]
    exact hnone x (List.mem_cons_of_mem j hx)

end Fork

section Maps

variable {m m' : Machine} {length flags fd : ℤ} {prot a : ℕ}

theorem closable_of_mayMap (hm : m.MapsNew m' length prot flags i p v) (h : m.MayMap length flags)
    (hlen : -2 ^ 31 ≤ length) : v.Closable := by
  obtain ⟨hshared, hround, hend⟩ := h
  have hsum := m.vmaSum_bounds
  have haddr := hm.addr
  have hsize : pgRoundUpInt length = (length + 4095) / 4096 * 4096 := by
    unfold pgRoundUpInt
    rw [toInt32_of_lt (by omega) (by omega)]
  rw [hsize] at haddr
  simp only [Machine.mapTop_eq, Machine.roundUp] at haddr hend
  have hvals : userTop = 274877898752 := by decide
  have hbounds : 2 ^ 37 ≤ v.addr ∧ v.addr < 2 ^ 39 ∧ v.addr % 4096 = 0 := by omega
  have hs : v.flag % 2 ≠ 1 := by rw [hm.flag]; exact hshared
  have hu : ¬v.IsUnused := by
    rintro ⟨-, h0, -⟩
    omega
  have hacc : v.prot &&& 7 ≠ 0 := by
    rw [hm.access, Nat.and_or_distrib_right]
    exact fun hz => absurd (Nat.or_eq_zero_iff.mp hz).2 (by decide)
  have hl := hm.len
  by_cases hpos : 0 < length
  · have := hend hpos
    apply Vma.closable_of_nonneg hs hu hbounds.2.2 hacc
    · omega
    · omega
    · omega
  · apply Vma.closable_of_nonpos hs hu hbounds.2.2 hacc hbounds.1 hbounds.2.1
    · omega
    · omega

theorem place_setMachine {x : Option ℕ} (hm : m.task.vma = Function.update s.myTask.task.vma j x) :
    (s.setMachine m).place = Function.update s.place (s.current, j) x :=
  place_setVma (s := s) (q := { s.myTask with task := m.task }) hm

theorem Pool.mapVma (h : s.Pool extra) (hc : s.current < ntask) (hlen : -2 ^ 31 ≤ length)
    (hmay : s.machine.MayMap length flags)
    (hok : onMachine (mapVma length prot flags fd) s = .ok (a, s')) : s'.Pool extra := by
  obtain ⟨m', hrun, rfl⟩ := onMachine_eq_ok.mp hok
  obtain ⟨i, p, v, hm⟩ := Machine.mapVma_ok h.mapped_used hrun
  have heq := hm.eq
  refine h.fill (mem_mapSlots hc hm.lt) hm.slot hm.unused (closable_of_mayMap hm hmay hlen) ?_ ?_
    fun x => ?_
  · rw [heq]
    exact place_setMachine rfl
  · rw [heq]
    rfl
  · rw [hm.ip, if_neg (by simp)]
    exact le_of_eq (add_zero _)

theorem Pool.unmapVma (h : s.Pool extra) {addr : ℕ} {z : ℤ}
    (hok : onMachine (unmapVma addr) s = .ok (z, s')) : s'.Pool extra := by
  obtain ⟨m', hrun, rfl⟩ := onMachine_eq_ok.mp hok
  rcases Machine.unmapVma_ok hrun with rfl | ⟨i, p, ram, hm, -, rfl⟩
  · rwa [setMachine_machine]
  · apply h.clear (k := (s.current, i)) (p := p) hm.slot
    · exact place_setMachine rfl
    · rfl
    · intro x
      rw [show (s.vmaTable p).ip = none from hm.ip, if_neg (by simp)]
      exact le_of_eq (add_zero _).symm

end Maps

end System

end StartOS
