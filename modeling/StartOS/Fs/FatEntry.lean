import StartOS.Fs.DirOps

/-! # The table in any geometry

What `GetFatEntry` and `SetFatEntey` do depends on two comparisons only: whether
the cluster number is at most `cluster_count_` and whether the sector of its entry
is below 1024. This module says what they and `AllocCluster` do whatever the boot
sector contains, and what the parts of the cluster map keep.
-/

namespace StartOS

/-- Sectors have a size, and both it and the start of the table are 16-bit numbers. -/
structure Fat32Info.SectorGeometry (info : Fat32Info) : Prop where
  pos : 0 < info.bytesPerSector
  bytesPerSector : info.bytesPerSector < 2 ^ 16
  reserveSectors : info.reserveSectors < 2 ^ 16

namespace Fat32FileSystem

open Hoare

variable {s s' : Fat32FileSystem} {r : InodeRef} {c d f i n v : ℕ}

/-- The entry of a cluster is in `fat_cache_`. -/
structure Readable (s : Fat32FileSystem) (c : ℕ) : Prop where
  le_count : c ≤ s.info.clusterCount
  sector_lt : s.fatSectorOfCluster c < 1024

def slot (s : Fat32FileSystem) (c : ℕ) : ℕ := s.fatCache.readLE (s.fatIndex c) 4

def setSlot (s : Fat32FileSystem) (c v : ℕ) : Fat32FileSystem :=
  { s with fatCache := s.fatCache.writeLE (s.fatIndex c) 4 v }

section Entry

/-! ## One entry -/

theorem getFatEntry_readable (h : s.Readable c) : getFatEntry c s = .ok (s.slot c, s) := by
  rw [getFatEntry, get_bind, if_neg (not_lt.mpr h.le_count), if_pos h.sector_lt]
  rfl

theorem getFatEntry_outside (h : s.info.clusterCount < c) :
    getFatEntry c s = .ok (minusOne, s) := by
  rw [getFatEntry, get_bind, if_pos h]
  rfl

theorem getFatEntry_panic (hc : c ≤ s.info.clusterCount) (h : ¬s.Readable c) :
    getFatEntry c s = .error (.panic "get fat entry") := by
  rw [getFatEntry, get_bind, if_neg (not_lt.mpr hc), if_neg fun hs => h ⟨hc, hs⟩]
  rfl

theorem setFatEntry_readable (h : s.Readable c) : setFatEntry c v s = .ok (0, s.setSlot c v) := by
  rw [setFatEntry, get_bind, if_neg (not_lt.mpr h.le_count), if_pos h.sector_lt]
  rfl

theorem inode_eq_ok {ip : Inode} (h : inode r s = .ok (ip, s')) : s.inode? r = some ip ∧ s' = s := by
  rw [inode, get_bind] at h
  cases hq : s.inode? r with
  | none => rw [hq] at h; cases h
  | some iq => rw [hq] at h; cases h; exact ⟨rfl, rfl⟩

theorem getFatEntry_eq_ok (h : getFatEntry c s = .ok (v, s')) :
    s' = s ∧ (s.Readable c ∧ v = s.slot c ∨ s.info.clusterCount < c ∧ v = minusOne) := by
  by_cases hc : c ≤ s.info.clusterCount
  · by_cases hr : s.Readable c
    · rw [getFatEntry_readable hr] at h
      cases h
      exact ⟨rfl, .inl ⟨hr, rfl⟩⟩
    · rw [getFatEntry_panic hc hr] at h
      cases h
  · rw [getFatEntry_outside (not_le.mp hc)] at h
    cases h
    exact ⟨rfl, .inr ⟨not_le.mp hc, rfl⟩⟩

theorem not_readable_end (hg : s.info.SectorGeometry) : ¬s.Readable endOfCluster := by
  intro h
  have hlt := h.sector_lt
  have hb := hg.bytesPerSector
  have hr := hg.reserveSectors
  have hnum : endOfCluster * 4 % 2 ^ 32 = 1073741820 := by decide
  have hlow : 16384 ≤ 1073741820 / s.info.bytesPerSector :=
    (Nat.le_div_iff_mul_le hg.pos).mpr (by omega)
  have hhigh : 1073741820 / s.info.bytesPerSector ≤ 1073741820 := Nat.div_le_self ..
  rw [fatSectorOfCluster, hnum] at hlt
  omega

end Entry

section Alloc

/-! ## The search for a free entry -/

/-- The state after `AllocCluster` has taken cluster `c`. -/
def taken (s : Fat32FileSystem) (c : ℕ) : Fat32FileSystem :=
  { s.setSlot c endOfCluster with disk := s.clearCluster s.disk c }

structure Finding (s : Fat32FileSystem) (c f : ℕ) : Prop where
  le : c ≤ f
  readable : ∀ d, c ≤ d → d ≤ f → s.Readable d
  used : ∀ d, c ≤ d → d < f → s.slot d ≠ 0
  free : s.slot f = 0

theorem Finding.next (h : s.Finding c f) (hc : s.slot c ≠ 0) : s.Finding (c + 1) f := by
  have hne : c ≠ f := fun he => hc (he ▸ h.free)
  refine ⟨lt_of_le_of_ne h.le hne, fun d hd => h.readable d (Nat.le_of_succ_le hd),
    fun d hd => h.used d (Nat.le_of_succ_le hd), h.free⟩

theorem allocFrom_found (h : s.Finding c f) (hn : f < c + n) :
    allocFrom n c s = .ok (f, s.taken f) := by
  induction n generalizing c with
  | zero =>
    have := h.le
    omega
  | succ n ih =>
    have hread := h.readable c le_rfl h.le
    rw [allocFrom, bind_of_ok (getFatEntry_readable hread)]
    by_cases hc : s.slot c = 0
    · have hcf : c = f := by
        by_contra hne
        exact h.used c le_rfl (lt_of_le_of_ne h.le hne) hc
      subst hcf
      rw [if_pos hc, bind_of_ok (setFatEntry_readable hread), bind_of_ok (zeroCluster_eq c _)]
      rfl
    · rw [if_neg hc]
      exact ih (h.next hc) (by omega)

theorem allocFrom_eq_ok (hok : allocFrom n c s = .ok (f, s')) :
    s.Finding c f ∧ f < c + n ∧ s' = s.taken f := by
  induction n generalizing c with
  | zero => cases hok
  | succ n ih =>
    obtain ⟨v, s₁, hget, hrun⟩ := bind_eq_ok.mp hok
    obtain ⟨rfl, hcase⟩ := getFatEntry_eq_ok hget
    by_cases hv : v = 0
    · obtain ⟨hread, rfl⟩ : s₁.Readable c ∧ v = s₁.slot c := by
        refine hcase.resolve_right fun hout => ?_
        exact absurd (hv.symm.trans hout.2) (by decide)
      rw [if_pos hv, bind_of_ok (setFatEntry_readable hread), bind_of_ok (zeroCluster_eq c _)] at hrun
      cases hrun
      refine ⟨⟨le_rfl, fun d h₁ h₂ => ?_, fun d h₁ h₂ => ?_, hv⟩, by omega, rfl⟩
      · rwa [le_antisymm h₂ h₁]
      · omega
    · rw [if_neg hv] at hrun
      obtain ⟨hfind, hlt, heq⟩ := ih hrun
      obtain ⟨hread, rfl⟩ : s₁.Readable c ∧ v = s₁.slot c := by
        refine hcase.resolve_right fun hout => ?_
        have := (hfind.readable f hfind.le le_rfl).le_count
        have := hfind.le
        omega
      refine ⟨⟨Nat.le_of_succ_le hfind.le, fun d h₁ h₂ => ?_, fun d h₁ h₂ => ?_, hfind.free⟩,
        by omega, heq⟩
      · rcases Nat.eq_or_lt_of_le h₁ with rfl | h₁
        · exact hread
        · exact hfind.readable d h₁ h₂
      · rcases Nat.eq_or_lt_of_le h₁ with rfl | h₁
        · exact hv
        · exact hfind.used d h₁ h₂

theorem allocFrom_hang (h : ∀ d, c ≤ d → d < c + n →
    s.Readable d ∧ s.slot d ≠ 0 ∨ s.info.clusterCount < d) : allocFrom n c s = .error .hang := by
  induction n generalizing c with
  | zero => rfl
  | succ n ih =>
    have hrest := ih (c := c + 1) fun d h₁ h₂ => h d (by omega) (by omega)
    rcases h c le_rfl (by omega) with ⟨hread, hne⟩ | hout
    · rw [allocFrom, bind_of_ok (getFatEntry_readable hread), if_neg hne, hrest]
    · rw [allocFrom, bind_of_ok (getFatEntry_outside hout), if_neg (by decide), hrest]

theorem allocCluster_eq_ok : allocCluster s = .ok (f, s') ↔ s.Finding 2 f ∧ s' = s.taken f := by
  constructor
  · intro hok
    obtain ⟨hfind, -, heq⟩ := allocFrom_eq_ok hok
    exact ⟨hfind, heq⟩
  · rintro ⟨hfind, rfl⟩
    have := (hfind.readable f hfind.le le_rfl).le_count
    exact allocFrom_found hfind (by omega)

theorem allocCluster_ne_end (hg : s.info.SectorGeometry) (hok : allocCluster s = .ok (f, s')) :
    f ≠ endOfCluster := by
  rintro rfl
  obtain ⟨hfind, -⟩ := allocCluster_eq_ok.mp hok
  exact not_readable_end hg (hfind.readable _ hfind.le le_rfl)

end Alloc

section Keep

/-! ## What the parts of a transfer keep -/

variable {I : Fat32FileSystem → Prop}

def TableFree (I : Fat32FileSystem → Prop) : Prop :=
  ∀ ⦃s⦄ fatCache disk, I s → I { s with fatCache := fatCache, disk := disk }

def CursorFree (r : InodeRef) (I : Fat32FileSystem → Prop) : Prop :=
  ∀ ⦃s ip⦄ k c, s.inode? r = some ip → I s → I (s.setInode r { ip with iLogi := k, iClus := c })

theorem getFatEntry_keeps (c : ℕ) : Keeps I (getFatEntry c) :=
  Keeps.get.bind fun _ => Keeps.ite (Keeps.pure _) (Keeps.ite (Keeps.pure _) (Keeps.throw _))

theorem setFatEntry_keeps (hI : TableFree I) (c v : ℕ) : Keeps I (setFatEntry c v) := by
  intro s a s' h hok
  rw [setFatEntry, get_bind] at hok
  split at hok
  · cases hok
    exact h
  · split at hok
    · cases hok
      exact hI _ s.disk h
    · cases hok

theorem allocFrom_keeps (hI : TableFree I) (n c : ℕ) : Keeps I (allocFrom n c) := by
  induction n generalizing c with
  | zero => exact Keeps.throw _
  | succ n ih =>
    refine (getFatEntry_keeps c).bind fun v => Keeps.ite ?_ (ih _)
    refine (setFatEntry_keeps hI _ _).bind fun _ => Keeps.bind ?_ fun _ => Keeps.pure _
    intro s a s' h hok
    rw [zeroCluster_eq] at hok
    cases hok
    exact hI s.fatCache _ h

theorem bmapLoop_keeps (hI : TableFree I) (n c : ℕ) : Keeps I (bmapLoop n c) := by
  induction n generalizing c with
  | zero => exact Keeps.pure _
  | succ n ih =>
    refine Keeps.ite (Keeps.pure _) ((getFatEntry_keeps c).bind fun v => Keeps.ite ?_ (ih _))
    refine Keeps.bind (Keeps.get.bind fun s => allocFrom_keeps hI _ _) fun _ => ?_
    exact (setFatEntry_keeps hI _ _).bind fun _ => ih _

theorem updateCursor_keeps (hr : CursorFree r I) (k c : ℕ) :
    Keeps I (updateInodeWith r fun ip => { ip with iLogi := k, iClus := c }) := by
  intro s a s' h hok
  obtain ⟨ip, s₁, hnode, hrun⟩ := bind_eq_ok.mp hok
  obtain ⟨hip, rfl⟩ := inode_eq_ok hnode
  cases hrun
  exact hr k c hip h

theorem bmap_keeps_of (hI : TableFree I) (hr : CursorFree r I) (k : ℕ) : Keeps I (bmap r k) := by
  refine Keeps.get.bind fun s => (inode_keeps r).bind fun ip => ?_
  refine (bmapLoop_keeps hI _ _).bind fun c => Keeps.ite (Keeps.pure _) ?_
  exact (updateCursor_keeps hr k c).bind fun _ => Keeps.pure _

def BufferFree (I : Fat32FileSystem → Prop) : Prop :=
  ∀ ⦃s⦄ buffers, I s → I { s with buffers := buffers }

theorem bufRead_eq_ok (hok : bufRead c s = .ok (i, s')) :
    ∃ l, s.buffers.read s.disk s.dev c = .ok (i, l) ∧ s' = { s with buffers := l } := by
  rw [bufRead, get_bind] at hok
  cases hr : s.buffers.read s.disk s.dev c with
  | error e => rw [hr] at hok; cases hok
  | ok p =>
    rw [hr] at hok
    cases hok
    exact ⟨p.2, rfl, rfl⟩

theorem bufRead_keeps_of (hb : BufferFree I) (c : ℕ) : Keeps I (bufRead c) := by
  intro s i s' h hok
  obtain ⟨l, -, rfl⟩ := bufRead_eq_ok hok
  exact hb l h

theorem readLoop_keeps_of (hI : TableFree I) (hr : CursorFree r I) (hb : BufferFree I)
    (dst : ℕ → Bool) (n fuel total off : ℕ) (out : List UInt8) :
    Keeps I (readLoop r dst n fuel total off out) := by
  induction fuel generalizing total off out with
  | zero => exact Keeps.throw _
  | succ fuel ih =>
    refine Keeps.ite (Keeps.get.bind fun s => (bmap_keeps_of hI hr _).bind fun c => ?_) (Keeps.pure _)
    refine (bufRead_keeps_of hb c).bind fun i => Keeps.get.bind fun t => Keeps.ite (Keeps.pure _) ?_
    exact (Keeps.modify fun s h => hb _ h).bind fun _ => ih _ _ _

theorem readInode_keeps_of (hI : TableFree I) (hr : CursorFree r I) (hb : BufferFree I)
    (dst : ℕ → Bool) (off n : ℕ) : Keeps I (readInode r dst off n) :=
  (inode_keeps r).bind fun _ => Keeps.ite (Keeps.pure _) (readLoop_keeps_of hI hr hb _ _ _ _ _ _)

theorem readEntry_keeps_of (hI : TableFree I) (hr : CursorFree r I) (hb : BufferFree I) (off : ℕ) :
    Keeps I (readEntry r off) :=
  (readInode_keeps_of hI hr hb _ _ _).bind fun _ => Keeps.pure _

theorem writeLoop_keeps_of (hI : TableFree I) (hr : CursorFree r I) (hb : BufferFree I)
    (src : ℕ → Option UInt8) (n fuel total off : ℕ) : Keeps I (writeLoop r src n fuel total off) := by
  induction fuel generalizing total off with
  | zero => exact Keeps.throw _
  | succ fuel ih =>
    refine Keeps.ite (Keeps.get.bind fun s => (bmap_keeps_of hI hr _).bind fun c => ?_) (Keeps.pure _)
    refine (bufRead_keeps_of hb c).bind fun i => Keeps.get.bind fun t => ?_
    refine (Keeps.modify fun s h => hb _ h).bind fun _ => Keeps.ite (Keeps.pure _) ?_
    refine (Keeps.modify fun s h => hI s.fatCache _ h).bind fun _ => ?_
    exact (Keeps.modify fun s h => hb _ h).bind fun _ => ih _ _

theorem stamp_keeps_of (h : ∀ ⦃s⦄ n, I s → I { s with stampNo := n }) : Keeps I stamp := by
  intro s a s' hs hok
  cases hok
  exact h _ hs

theorem fillShortFile_keeps_of (h : ∀ ⦃s⦄ n, I s → I { s with stampNo := n })
    (entry : Stamp → ByteMem) (name : CString) (cluster mode : ℕ) :
    Keeps I (fillShortFile entry name cluster mode) :=
  (stamp_keeps_of h).bind fun _ =>
    Keeps.ite ((Keeps.throw _).bind fun _ => Keeps.pure _) (Keeps.pure _)

theorem updateInode_keeps (h : ∀ ⦃s⦄ disk n, I s → I { s with disk := disk, stampNo := n }) :
    Keeps I (updateInode r) := by
  refine Keeps.bind (stamp_keeps_of fun s n hs => h s.disk n hs) fun t => ?_
  refine Keeps.get.bind fun s => (inode_keeps r).bind fun ip => ?_
  refine Keeps.bind (Keeps.get.bind fun _ => Keeps.pure _) fun _ => ?_
  exact Keeps.modify fun s hs => h _ s.stampNo hs

end Keep

section Map

/-! ## Where a walk starts and what it leaves -/

variable {ip : Inode} {k : ℕ}

/-- Where the walk of `bmap` to logical cluster `k` starts: the cluster and its logical number. -/
def walkStart (s : Fat32FileSystem) (r : InodeRef) (ip : Inode) (k : ℕ) : ℕ × ℕ :=
  if k ≥ ip.iLogi then (ip.iClus, signExtend ip.iLogi) else (s.startOf r ip, 0)

theorem bmap_eq_ok (hip : s.inode? r = some ip) (hok : bmap r k s = .ok (c, s')) :
    ∃ cur s₁, bmapLoop (k - (walkStart s r ip k).2) (walkStart s r ip k).1 s = .ok (cur, s₁) ∧
      (cur = endOfCluster ∧ c = minusOne ∧ s' = s₁ ∨
        cur ≠ endOfCluster ∧ c = cur ∧ s' = s₁.setInode r { ip with iLogi := k, iClus := cur }) := by
  rw [bmap, get_bind, bind_of_ok (inode_eq hip)] at hok
  obtain ⟨cur, s₁, hloop, hrest⟩ := bind_eq_ok.mp hok
  have hip₁ : s₁.inode? r = some ip := bmapLoop_keeps (I := fun t => t.inode? r = some ip)
    (fun _ _ _ h => by cases r <;> exact h) _ _ hip hloop
  refine ⟨cur, s₁, hloop, ?_⟩
  by_cases hend : cur = endOfCluster
  · rw [if_pos hend] at hrest
    cases hrest
    exact .inl ⟨hend, rfl, rfl⟩
  · rw [if_neg hend, bind_of_ok (updateInodeWith_eq hip₁)] at hrest
    cases hrest
    exact .inr ⟨hend, rfl, rfl⟩

end Map

end Fat32FileSystem

end StartOS
