import Mathlib.Logic.Relation
import StartOS.Memory.BuddyOps

/-! # Runs of the buddy allocator

A run interleaves `alloc` and `free` with stores of the callers into their own
bytes and with other users of the page allocator. In every state of a run the
blocks handed out and the free blocks tile the pages held, and a page without
a block in use has gone back.
-/

namespace StartOS.BuddyAllocator

open Linked DyadicBlocks

/-- A pointer handed out, with the size that was asked for. -/
structure Live where
  ptr : ℕ
  size : ℕ
  deriving DecidableEq, Repr

structure Sys where
  alloc : BuddyAllocator
  live : List Live

namespace Sys

def block (s : Sys) (v : Live) : Block := ⟨v.ptr - 8, (s.alloc.pages.mem (v.ptr - 8)).toNat⟩

def liveBlocks (s : Sys) : Set Block := {b | ∃ v ∈ s.live, s.block v = b}

/-- After `BuddyAllocator::init`. -/
structure Init (s : Sys) : Prop where
  freelist : s.alloc.freelist = fun _ => 0
  calls : s.alloc.calls = []
  pages : s.alloc.pages.WellFormed
  live : s.live = []

/-- One step: a call that returns, a store by a caller, or the rest of the kernel at work on
pages the allocator does not hold. -/
inductive Step : Sys → Sys → Prop
  | alloc {s : Sys} {sz p : ℕ} {a : BuddyAllocator} : sz ≤ 4088 → s.alloc.alloc sz = .ok (p, a) →
      Step s ⟨a, ⟨p, sz⟩ :: s.live⟩
  | free {s : Sys} {v : Live} {a : BuddyAllocator} : v ∈ s.live → s.alloc.free v.ptr = .ok a →
      Step s ⟨a, s.live.erase v⟩
  | store {s : Sys} {v : Live} {x : ℕ} {c : UInt8} : v ∈ s.live → v.ptr ≤ x → x < v.ptr + v.size →
      Step s ⟨s.alloc.setMem (s.alloc.pages.mem.blit x 1 fun _ => c), s.live⟩
  | pages {s : Sys} {m : MemAllocator} : m.WellFormed → m.kend = s.alloc.pages.kend →
      (∀ p ∈ held s.alloc.calls, p ∉ m.freeList) →
      (∀ x ∈ region (held s.alloc.calls), m.mem x = s.alloc.pages.mem x) →
      Step s ⟨{ s.alloc with pages := m }, s.live⟩

def Reachable (s : Sys) : Prop := ∃ s₀, Init s₀ ∧ Relation.ReflTransGen Step s₀ s

/-- The invariant of a run: `Core` with the blocks handed out in use. -/
structure Inv (s : Sys) (fl : ℕ → List ℕ) : Prop where
  core : Core s.alloc fl s.liveBlocks
  nodup : (s.live.map Live.ptr).Nodup
  header : ∀ v ∈ s.live, 8 ≤ v.ptr
  fits : ∀ v ∈ s.live, v.size + 8 ≤ 2 ^ (s.block v).level

variable {s s' : Sys} {fl : ℕ → List ℕ} {v w : Live} {a : BuddyAllocator}

theorem block_mem (hv : v ∈ s.live) : s.block v ∈ s.liveBlocks := ⟨v, hv, rfl⟩

theorem block_of_keeps {l : List Live} {O : Set Block} (hk : Keeps s.alloc a O)
    (hv : s.block v ∈ O) : (⟨a, l⟩ : Sys).block v = s.block v := by
  have := hk _ hv _ (s.block v).addr_mem_span
  rw [block, block]
  simp only [block] at this
  rw [this]

namespace Inv

theorem init (h : Init s) : Inv s fun _ => [] := by
  have hl : s.liveBlocks = ∅ := by simp [liveBlocks, h.live]
  have hf : freeBlocks (fun _ => []) = ∅ := by ext b; simp
  have hr : region [] = ∅ := by ext x; simp [region]
  refine ⟨⟨h.pages, ?_, ?_, ?_, ?_, ?_, ?_, ?_, ?_, ?_⟩, ?_, ?_, ?_⟩
  · rw [h.calls]; exact .nil
  · simp [h.calls, held]
  · simp [h.calls, held]
  · intro i
    rw [h.freelist]
    exact path_nil.mpr rfl
  · simp
  · simp [hl]
  · rw [hl, hf, h.calls, held, hr, Set.union_self]
    exact Tiles.empty
  · simp [hl]
  · simp
  · simp [h.live]
  · simp [h.live]
  · simp [h.live]

theorem eq_of_ptr_eq (h : Inv s fl) (hv : v ∈ s.live) (hw : w ∈ s.live) (he : v.ptr = w.ptr) :
    v = w :=
  List.inj_on_of_nodup_map h.nodup hv hw he

theorem block_injective (h : Inv s fl) (hv : v ∈ s.live) (hw : w ∈ s.live)
    (he : s.block v = s.block w) : v = w := by
  refine h.eq_of_ptr_eq hv hw ?_
  have ha : v.ptr - 8 = w.ptr - 8 := congrArg Block.addr he
  have := h.header v hv
  have := h.header w hw
  omega

theorem mem_block (h : Inv s fl) (hv : v ∈ s.live) {x : ℕ} (hx : v.ptr - 8 ≤ x)
    (hx' : x < v.ptr + v.size) : x ∈ (s.block v).span := by
  have := h.header v hv
  have := h.fits v hv
  exact ⟨hx, by simp only [block] at *; omega⟩

theorem alloc (h : Inv s fl) {sz p : ℕ} (hsz : sz ≤ 4088) (hs : s.alloc.alloc sz = .ok (p, a)) :
    ∃ fl', Inv ⟨a, ⟨p, sz⟩ :: s.live⟩ fl' := by
  rcases h.core.alloc_spec hsz with ⟨he, -⟩ | ⟨b, k, a', fl', he, hc, hb, hf, hm, hk⟩
  · rw [he] at hs; cases hs
  rw [he] at hs
  cases hs
  have hold : ∀ v ∈ s.live, (⟨a, ⟨b + 8, sz⟩ :: s.live⟩ : Sys).block v = s.block v :=
    fun v hv => block_of_keeps hk (block_mem hv)
  have hnew : (⟨a, ⟨b + 8, sz⟩ :: s.live⟩ : Sys).block ⟨b + 8, sz⟩ = ⟨b, k⟩ := by
    rw [block]
    simp only [Nat.add_sub_cancel, hm]
  have hlive : (⟨a, ⟨b + 8, sz⟩ :: s.live⟩ : Sys).liveBlocks = insert ⟨b, k⟩ s.liveBlocks := by
    ext c
    simp only [liveBlocks, Set.mem_ofPred_eq, List.mem_cons, Set.mem_insert_iff]
    constructor
    · rintro ⟨v, rfl | hv, rfl⟩
      · exact Or.inl hnew
      · exact Or.inr ⟨v, hv, (hold v hv).symm⟩
    · rintro (rfl | ⟨v, hv, rfl⟩)
      · exact ⟨_, Or.inl rfl, hnew⟩
      · exact ⟨v, Or.inr hv, hold v hv⟩
  refine ⟨fl', ⟨by rw [hlive]; exact hc, ?_, ?_, ?_⟩⟩
  · -- a pointer already in use would have the new block's first byte
    refine List.nodup_cons.mpr ⟨fun hm' => ?_, h.nodup⟩
    obtain ⟨v, hv, he⟩ := List.mem_map.mp hm'
    have hx : b ∈ (s.block v).span := h.mem_block hv (by simp only at he; omega)
      (by simp only at he; omega)
    have := hc.tiles.eq_of_mem (Or.inr (Or.inr (block_mem hv))) (Or.inr (Or.inl rfl)) hx
      (Block.addr_mem_span ⟨b, k⟩)
    exact hb (this ▸ block_mem hv)
  · rintro v hv
    rcases List.mem_cons.mp hv with rfl | hv
    · exact Nat.le_add_left 8 b
    · exact h.header v hv
  · rintro v hv
    rcases List.mem_cons.mp hv with rfl | hv
    · rw [hnew]; exact hf
    · rw [hold v hv]; exact h.fits v hv

theorem liveBlocks_erase (h : Inv s fl) (hv : v ∈ s.live) :
    s.liveBlocks = insert (s.block v) {b | ∃ w ∈ s.live.erase v, s.block w = b} ∧
      s.block v ∉ {b | ∃ w ∈ s.live.erase v, s.block w = b} := by
  have hnd : s.live.Nodup := h.nodup.of_map _
  constructor
  · ext c
    simp only [liveBlocks, Set.mem_ofPred_eq, Set.mem_insert_iff, hnd.mem_erase_iff]
    constructor
    · rintro ⟨w, hw, rfl⟩
      by_cases hwv : w = v
      · exact Or.inl (by rw [hwv])
      · exact Or.inr ⟨w, ⟨hwv, hw⟩, rfl⟩
    · rintro (rfl | ⟨w, ⟨-, hw⟩, rfl⟩)
      · exact ⟨v, hv, rfl⟩
      · exact ⟨w, hw, rfl⟩
  · rintro ⟨w, hw, he⟩
    rw [hnd.mem_erase_iff] at hw
    exact hw.1 (h.block_injective hw.2 hv he)

theorem free (h : Inv s fl) (hv : v ∈ s.live) :
    ∃ a fl', s.alloc.free v.ptr = .ok a ∧ Inv ⟨a, s.live.erase v⟩ fl' := by
  obtain ⟨hO, hn⟩ := h.liveBlocks_erase hv
  have hc := h.core
  rw [hO] at hc
  obtain ⟨a, fl', he, hc', hk⟩ := hc.free_spec hn rfl
  have hp : (s.block v).addr + 8 = v.ptr := Nat.sub_add_cancel (h.header v hv)
  rw [hp] at he
  have hsub : ∀ w ∈ s.live.erase v, w ∈ s.live := fun w hw => List.mem_of_mem_erase hw
  have hold : ∀ w ∈ s.live.erase v, (⟨a, s.live.erase v⟩ : Sys).block w = s.block w :=
    fun w hw => block_of_keeps hk ⟨w, hw, rfl⟩
  have hlive : (⟨a, s.live.erase v⟩ : Sys).liveBlocks =
      {b | ∃ w ∈ s.live.erase v, s.block w = b} := by
    ext c
    refine exists_congr fun w => and_congr_right fun hw => ?_
    rw [hold w hw]
  refine ⟨a, fl', he, ⟨by rw [hlive]; exact hc', ?_, fun w hw => h.header w (hsub w hw), ?_⟩⟩
  · exact h.nodup.sublist (List.erase_sublist.map _)
  · intro w hw
    rw [hold w hw]
    exact h.fits w (hsub w hw)

theorem setMem (h : Inv s fl) {m : ByteMem}
    (hf : ∀ b ∈ freeBlocks fl, ∀ x ∈ b.span, m x = s.alloc.pages.mem x)
    (hh : ∀ v ∈ s.live, m (v.ptr - 8) = s.alloc.pages.mem (v.ptr - 8)) :
    Inv ⟨s.alloc.setMem m, s.live⟩ fl := by
  have hold : ∀ v ∈ s.live, (⟨s.alloc.setMem m, s.live⟩ : Sys).block v = s.block v :=
    fun v hv => by rw [block, block]; simp [hh v hv]
  have hlive : (⟨s.alloc.setMem m, s.live⟩ : Sys).liveBlocks = s.liveBlocks := by
    ext c
    refine exists_congr fun v => and_congr_right fun hv => ?_
    rw [hold v hv]
  refine ⟨by rw [hlive]; exact h.core.setMem hf, h.nodup, h.header, fun v hv => ?_⟩
  rw [hold v hv]
  exact h.fits v hv

theorem store (h : Inv s fl) (hv : v ∈ s.live) {x : ℕ} {c : UInt8} (hx : v.ptr ≤ x)
    (hx' : x < v.ptr + v.size) :
    Inv ⟨s.alloc.setMem (s.alloc.pages.mem.blit x 1 fun _ => c), s.live⟩ fl := by
  have hxb := h.mem_block hv (x := x) (by omega) hx'
  refine h.setMem (fun b hb y hy => ?_) fun w hw => ?_
  · refine ByteMem.blit_of_not_mem ?_
    by_contra hn
    obtain rfl : y = x := by omega
    have := h.core.tiles.eq_of_mem (Or.inl hb) (Or.inr (block_mem hv)) hy hxb
    exact Set.disjoint_left.mp h.core.separate hb (this ▸ block_mem hv)
  · refine ByteMem.blit_of_not_mem ?_
    by_contra hn
    have hwx : w.ptr - 8 = x := by omega
    have hwb := (s.block w).addr_mem_span
    rw [show (s.block w).addr = x from hwx] at hwb
    have := h.core.tiles.eq_of_mem (Or.inr (block_mem hw)) (Or.inr (block_mem hv)) hwb hxb
    have := h.block_injective hw hv this
    have := h.header v hv
    subst w
    omega

theorem pages (h : Inv s fl) {m : MemAllocator} (hm : m.WellFormed)
    (hk : m.kend = s.alloc.pages.kend) (hf : ∀ p ∈ held s.alloc.calls, p ∉ m.freeList)
    (hr : ∀ x ∈ region (held s.alloc.calls), m.mem x = s.alloc.pages.mem x) :
    Inv ⟨{ s.alloc with pages := m }, s.live⟩ fl := by
  have h' := h.setMem (m := m.mem)
    (fun b hb x hx => hr x (h.core.tiles.span_subset (Or.inl hb) hx))
    (fun v hv => hr _ (h.core.tiles.span_subset (Or.inr (block_mem hv)) (s.block v).addr_mem_span))
  refine ⟨⟨hm, h.core.history, fun p hp => ?_, hf, h'.core.chain, h.core.free_level,
    h'.core.used_level, h'.core.tiles, h'.core.separate, h.core.no_buddies⟩, h.nodup, h.header,
    h'.fits⟩
  have := h.core.held_page p hp
  exact ⟨this.aligned, by rw [hk]; exact this.kend_le, this.lt_top⟩

theorem step (h : Inv s fl) (hs : Step s s') : ∃ fl', Inv s' fl' := by
  cases hs with
  | alloc hsz he => exact h.alloc hsz he
  | free hv he =>
    obtain ⟨a, fl', he', h'⟩ := h.free hv
    rw [he] at he'
    cases he'
    exact ⟨fl', h'⟩
  | store hv hx hx' => exact ⟨fl, h.store hv hx hx'⟩
  | pages hm hk hf hr => exact ⟨fl, h.pages hm hk hf hr⟩

end Inv

theorem Reachable.inv (h : Reachable s) : ∃ fl, Inv s fl := by
  obtain ⟨s₀, h₀, hr⟩ := h
  induction hr with
  | refl => exact ⟨_, Inv.init h₀⟩
  | tail _ hs ih =>
    obtain ⟨fl, hi⟩ := ih
    exact hi.step hs

/-- The free blocks `fl` and the blocks handed out share the pages held among themselves. -/
structure Partition (s : Sys) (fl : ℕ → List ℕ) : Prop where
  chain : ∀ i, Chain s.alloc.next 0 (s.alloc.freelist i) (fl i)
  free_level : ∀ i, fl i ≠ [] → 4 ≤ i ∧ i ≤ 11
  top_empty : s.alloc.freelist 12 = 0
  live_nodup : (s.live.map s.block).Nodup
  separate : Disjoint (freeBlocks fl) s.liveBlocks
  disjoint : (freeBlocks fl ∪ s.liveBlocks).PairwiseDisjoint Block.span
  aligned : ∀ b ∈ freeBlocks fl ∪ s.liveBlocks, 2 ^ b.level ∣ b.addr ∧
    ∃ p ∈ held s.alloc.calls, p % pgSize = 0 ∧ b.span ⊆ Set.Ico p (p + pgSize)
  cover : ∀ x, x ∈ region (held s.alloc.calls) ↔ ∃ b ∈ freeBlocks fl ∪ s.liveBlocks, x ∈ b.span
  inside : ∀ v ∈ s.live, (s.block v).addr + 8 = v.ptr ∧
    Set.Ico v.ptr (v.ptr + v.size) ⊆ (s.block v).span
  owned : ∀ v ∈ s.live, ∀ x ∈ Set.Ico (v.ptr - 8) (v.ptr + v.size),
    ∀ b ∈ freeBlocks fl ∪ s.liveBlocks, x ∈ b.span → b = s.block v

theorem Inv.in_page (h : Inv s fl) {b : Block} (hb : b ∈ freeBlocks fl ∪ s.liveBlocks) :
    ∃ p ∈ held s.alloc.calls, p % pgSize = 0 ∧ b.span ⊆ Set.Ico p (p + pgSize) := by
  obtain ⟨p, hp, h₁, h₂⟩ := h.core.tiles.span_subset hb b.addr_mem_span
  have ha := (h.core.held_page p hp).aligned
  exact ⟨p, hp, ha, (h.core.tiles.aligned b hb).span_subset (c := ⟨p, maxLevel⟩)
    (Nat.dvd_of_mod_eq_zero ha) (h.core.level_bounds hb).2 b.addr_mem_span ⟨h₁, h₂⟩⟩

theorem Inv.partition (h : Inv s fl) : Partition s fl where
  chain := h.core.chain
  free_level i hi := by
    have := h.core.free_level i hi
    simp only [minLevel, maxLevel] at this
    omega
  top_empty := by
    have hc := h.core.chain 12
    rcases hl : fl 12 with _ | ⟨x, l⟩
    · rw [hl] at hc
      exact hc
    · have := (h.core.free_level 12 (by simp [hl])).2
      simp [maxLevel] at this
  live_nodup := (h.nodup.of_map _).map_on fun _ hv _ hw he => h.block_injective hv hw he
  separate := h.core.separate
  disjoint := h.core.tiles.disjoint
  aligned b hb := ⟨h.core.tiles.aligned b hb, h.in_page hb⟩
  cover := h.core.tiles.cover
  inside v hv := ⟨Nat.sub_add_cancel (h.header v hv), fun x hx =>
    h.mem_block hv (by have := hx.1; omega) hx.2⟩
  owned v hv x hx b hb hxb :=
    h.core.tiles.eq_of_mem hb (Or.inr (block_mem hv)) hxb (h.mem_block hv hx.1 hx.2)

/-- In every state of every run the blocks handed out and the free blocks are disjoint and
make up the pages held, every pointer has its bytes in its own block, `alloc` returns unless
it needs a page and none is left, and `free` returns. -/
theorem reachable_partition (h : Reachable s) :
    ∃ fl, Partition s fl ∧
      (∀ sz ≤ 4088, (∃ p a, s.alloc.alloc sz = .ok (p, a)) ∨
        (s.alloc.alloc sz = .error (.panic "buddy alloc") ∧ s.alloc.pages.freeList = [])) ∧
      ∀ v ∈ s.live, ∃ a, s.alloc.free v.ptr = .ok a := by
  obtain ⟨fl, hi⟩ := h.inv
  refine ⟨fl, hi.partition, fun sz hsz => ?_, fun v hv => ?_⟩
  · rcases hi.core.alloc_spec hsz with he | ⟨a, k, s', fl', he, -⟩
    · exact Or.inr he
    · exact Or.inl ⟨_, _, he⟩
  · obtain ⟨a, fl', he, -⟩ := hi.free hv
    exact ⟨a, he⟩

def onePage : Sys := ⟨⟨fun _ => 0, ⟨0x80200000, fun _ => 0, [0x80400000], 1⟩, []⟩, []⟩

theorem init_onePage : Init onePage where
  freelist := rfl
  calls := rfl
  pages := ⟨by decide, by decide, fun p hp => by
    obtain rfl : p = 0x80400000 := by simpa [onePage] using hp
    exact ⟨by decide, by decide, by decide⟩⟩
  live := rfl

theorem reachable_onePage_alloc : ∃ a, onePage.alloc.alloc 24 = .ok (0x80400008, a) ∧
    Reachable ⟨a, [⟨0x80400008, 24⟩]⟩ :=
  ⟨_, rfl, onePage, init_onePage, .single (.alloc (by decide) rfl)⟩

theorem reachable_partition_onePage : ∃ a fl, onePage.alloc.alloc 24 = .ok (0x80400008, a) ∧
    Partition ⟨a, [⟨0x80400008, 24⟩]⟩ fl := by
  obtain ⟨a, he, hr⟩ := reachable_onePage_alloc
  obtain ⟨fl, hp, -⟩ := reachable_partition hr
  exact ⟨a, fl, he, hp⟩

theorem Inv.exists_live (h : Inv s fl) {p : ℕ} (hp : p ∈ held s.alloc.calls) :
    ∃ v ∈ s.live, (s.block v).span ⊆ Set.Ico p (p + pgSize) := by
  by_contra hno
  have hO : ∀ b ∈ s.liveBlocks, ¬ b.span ⊆ Set.Ico p (p + pgSize) := by
    rintro b ⟨v, hv, rfl⟩ hsub
    exact hno ⟨v, hv, hsub⟩
  have hpa : (⟨p, maxLevel⟩ : Block).Aligned :=
    Nat.dvd_of_mod_eq_zero (h.core.held_page p hp).aligned
  -- without a block in use the free blocks of the page would have merged to the whole page
  have hm : (⟨p, maxLevel⟩ : Block) ∈ freeBlocks fl ∪ s.liveBlocks := by
    refine h.core.tiles.mem_of_no_buddies hpa (fun x hx => ⟨p, hp, hx⟩)
      (fun c hc _ _ _ => (h.core.level_bounds hc).2) fun c hc hsub hlt hbud => ?_
    have hca := h.core.tiles.aligned c hc
    have hbsub : c.buddy.span ⊆ (⟨p, maxLevel⟩ : Block).span := by
      have := hca.merge.span_subset hpa hlt (x := c.addr)
        (by rw [hca.span_merge]; exact Or.inl c.addr_mem_span) (hsub c.addr_mem_span)
      rw [hca.span_merge] at this
      exact Set.subset_union_right.trans this
    have hcf : c ∈ freeBlocks fl := hc.resolve_right fun hO' => hO c hO' hsub
    exact h.core.no_buddies c hcf (hbud.resolve_right fun hO' => hO _ hO' hbsub)
  rcases hm with hm | hm
  · exact lt_irrefl _ (h.core.free_level maxLevel (List.ne_nil_of_mem hm)).2
  · exact hO _ hm subset_rfl

theorem Inv.held_iff (h : Inv s fl) {p : ℕ} (hp : p % pgSize = 0) :
    p ∈ held s.alloc.calls ↔ ∃ v ∈ s.live, (s.block v).span ⊆ Set.Ico p (p + pgSize) := by
  refine ⟨h.exists_live, ?_⟩
  rintro ⟨v, hv, hsub⟩
  obtain ⟨q, hq, hqa, hqs⟩ := h.in_page (Or.inr (block_mem hv))
  have h₁ := hsub (s.block v).addr_mem_span
  have h₂ := hqs (s.block v).addr_mem_span
  simp only [Set.mem_Ico, pgSize] at *
  obtain rfl : p = q := by omega
  exact hq

theorem Inv.no_live (h : Inv s fl) (hl : s.live = []) :
    (∀ i, s.alloc.freelist i = 0) ∧ held s.alloc.calls = [] := by
  have hheld : held s.alloc.calls = [] := by
    refine List.eq_nil_iff_forall_not_mem.mpr fun p hp => ?_
    obtain ⟨v, hv, -⟩ := h.exists_live hp
    simp [hl] at hv
  refine ⟨fun i => ?_, hheld⟩
  have hc := h.core.chain i
  rcases hx : fl i with _ | ⟨x, l⟩
  · rw [hx] at hc
    exact hc
  · have hm : (⟨x, i⟩ : Block) ∈ freeBlocks fl := by simp [hx]
    obtain ⟨p, hp, -⟩ := h.in_page (Or.inl hm)
    simp [hheld] at hp

theorem Inv.free_all (h : Inv s fl) {order : List Live} (hp : order.Perm s.live) :
    ∃ a fl', order.foldlM (fun a v => a.free v.ptr) s.alloc = .ok a ∧ Inv ⟨a, []⟩ fl' := by
  induction order generalizing s fl with
  | nil =>
    obtain ⟨a, l⟩ := s
    obtain rfl : l = [] := by simpa using hp.symm.eq_nil
    exact ⟨a, fl, rfl, h⟩
  | cons v order ih =>
    obtain ⟨hv, hp⟩ := List.cons_perm_iff_perm_erase.mp hp
    obtain ⟨a, fl', he, h'⟩ := h.free hv
    obtain ⟨a', fl'', he', h''⟩ := ih h' hp
    exact ⟨a', fl'', by rw [List.foldlM_cons, he]; exact he', h''⟩

end Sys

theorem History.count {c : List PageCall} (h : History c) (p : ℕ) :
    c.count (.take p) = c.count (.give p) + (held c).count p := by
  induction h with
  | nil => rfl
  | @take q c _ _ ih =>
    by_cases hq : q = p
    · subst hq; simp [held, ih]; omega
    · simp [held, ih, hq]
  | @give q c _ hm ih =>
    by_cases hq : q = p
    · subst hq
      have := List.count_pos_iff.mpr hm
      simp [held, ih]
      omega
    · simp [held, ih, hq, List.count_erase_of_ne (Ne.symm hq)]

namespace Sys

variable {s : Sys}

/-- In every state of every run no two free blocks are buddies and the pages held are those
with a block in use; freeing all blocks in any order empties the free lists and gives back
every page as often as it was taken, never twice in a row. -/
theorem reachable_coalesced (h : Reachable s) :
    (∃ fl, (∀ i, Chain s.alloc.next 0 (s.alloc.freelist i) (fl i)) ∧
      ∀ b ∈ freeBlocks fl, b.buddy ∉ freeBlocks fl) ∧
    (∀ p, p % pgSize = 0 →
      (p ∈ held s.alloc.calls ↔ ∃ v ∈ s.live, (s.block v).span ⊆ Set.Ico p (p + pgSize))) ∧
    ∀ order : List Live, order.Perm s.live →
      ∃ a, order.foldlM (fun a v => a.free v.ptr) s.alloc = .ok a ∧
        (∀ i, a.freelist i = 0) ∧ held a.calls = [] ∧ History a.calls ∧
        ∀ p, a.calls.count (.give p) = a.calls.count (.take p) := by
  obtain ⟨fl, hi⟩ := h.inv
  refine ⟨⟨fl, hi.core.chain, hi.core.no_buddies⟩, fun p hp => hi.held_iff hp, fun order ho => ?_⟩
  obtain ⟨a, fl', he, ha⟩ := hi.free_all ho
  obtain ⟨hf, hh⟩ := ha.no_live rfl
  refine ⟨a, he, hf, hh, ha.core.history, fun p => ?_⟩
  have hcount := ha.core.history.count p
  have hh : held a.calls = [] := hh
  rw [hh] at hcount
  simpa using hcount.symm

theorem reachable_coalesced_onePage : ∃ a b, onePage.alloc.alloc 24 = .ok (0x80400008, a) ∧
    a.free 0x80400008 = .ok b ∧ (∀ i, b.freelist i = 0) ∧ held b.calls = [] := by
  obtain ⟨a, he, hr⟩ := reachable_onePage_alloc
  obtain ⟨b, hb, hf, hh, -⟩ := (reachable_coalesced hr).2.2 _ (List.Perm.refl _)
  refine ⟨a, b, he, ?_, hf, hh⟩
  obtain ⟨c, hc, hcb⟩ := Kernel.bind_ok.mp hb
  cases hcb
  exact hc

end Sys

end StartOS.BuddyAllocator
