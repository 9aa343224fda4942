import StartOS.Fs.Coherence
import StartOS.Fs.FatEntry
import StartOS.Fs.FsOp
import StartOS.Fs.ReadTrace
import StartOS.Lib.ZeroBytes

/-! # Reading without allocating

`bmap` appends a cluster when it finds the end mark before the cluster it looks
for, whoever asks. A read leaves the volume as it is exactly when none of its walks
gets to the mark. That an allocation is never undone is seen from the number of
zero bytes in `fat_cache_`: each takes one word of them and gives back less.
-/

namespace StartOS.Fat32FileSystem

open Hoare ByteMem

variable {s s' t t' : Fat32FileSystem} {r : InodeRef} {ip : Inode} {c cur k m n off z : ℕ}

def follow (s : Fat32FileSystem) (c : ℕ) : ℕ := if s.info.clusterCount < c then minusOne else s.slot c

/-- The end mark is in the entry of one of the first `m` clusters of the walk from `cur`. -/
def MeetsEnd (next : ℕ → ℕ) : ℕ → ℕ → Prop
  | 0, _ => False
  | m + 1, cur => cur ≠ endOfCluster ∧
    (next cur = endOfCluster ∨ MeetsEnd next m (next cur))

/-- The cluster `m` links further on from `cur`. -/
def arrive (next : ℕ → ℕ) : ℕ → ℕ → ℕ
  | 0, cur => cur
  | m + 1, cur => if cur = endOfCluster then cur else arrive next m (next cur)

/-- The walk of `bmap` to logical cluster `k` meets the end mark. -/
def MapMeetsEnd (s : Fat32FileSystem) (r : InodeRef) (ip : Inode) (k : ℕ) : Prop :=
  MeetsEnd s.follow (k - (walkStart s r ip k).2) (walkStart s r ip k).1

def moveCursor (s : Fat32FileSystem) (r : InodeRef) (ip : Inode) (k : ℕ) : Inode :=
  let cur := arrive s.follow (k - (walkStart s r ip k).2) (walkStart s r ip k).1
  if cur = endOfCluster then ip else { ip with iLogi := k, iClus := cur }

/-- None of the walks to the logical clusters `ks`, each from where the one before has ended, meets
the end mark. -/
def WalksInside (s : Fat32FileSystem) (r : InodeRef) : Inode → List ℕ → Prop
  | _, [] => True
  | ip, k :: ks => ¬s.MapMeetsEnd r ip k ∧ s.WalksInside r (s.moveCursor r ip k) ks

/-- The logical clusters the loop of `ReadInode` asks for. -/
def clustersRead (dst : ℕ → Bool) (n bpc : ℕ) : ℕ → ℕ → ℕ → List ℕ
  | 0, _, _ => []
  | fuel + 1, total, offset =>
    if total < n then
      let nread := min (n - total) (bpc - offset % bpc)
      offset / bpc % 2 ^ 32 ::
        if prefixLen (fun j => dst (total + j)) nread < nread then []
        else clustersRead dst n bpc fuel (total + nread) (offset + nread)
    else []

/-- `ReadInode` of `n` bytes does not walk up to the end mark. -/
def StaysInside (s : Fat32FileSystem) (r : InodeRef) (dst : ℕ → Bool) (offset n : ℕ) : Prop :=
  ∀ ip, s.inode? r = some ip → offset > ip.sz ∨ (offset + n) % 2 ^ 64 < offset ∨
    let n := if offset + n > ip.sz then ip.sz - offset else n
    s.WalksInside r ip (clustersRead dst n s.info.bytesPerCluster (n + 1) 0 offset)

def tableEnd : ℕ := 2 ^ 33

def zeroBytes (s : Fat32FileSystem) : ℕ := (s.fatCache.zeros tableEnd).card

/-- If `P` holds, a read from `s` to `t` leaves the volume as it is; else it fills zero bytes in. -/
def LeavesIff (P : Prop) (s t : Fat32FileSystem) : Prop :=
  P ∧ SameVolume s t ∨ ¬P ∧ t.info = s.info ∧ t.zeroBytes < s.zeroBytes

/-- Reads as in `Ran`, each of which has `Q`. -/
inductive RanInside (Q : Fat32FileSystem → ℕ → Prop) (rd : ℕ → FsM (Option ByteMem)) :
    Fat32FileSystem → ℕ → List (Option ByteMem) → Fat32FileSystem → Prop
  | nil {s : Fat32FileSystem} {off : ℕ} : RanInside Q rd s off [] s
  | cons {s s₁ t : Fat32FileSystem} {off : ℕ} {v : Option ByteMem} {L : List (Option ByteMem)}
    (hq : Q s off) (h : rd off s = .ok (v, s₁)) (hL : RanInside Q rd s₁ (off + 32) L t) :
      RanInside Q rd s off (v :: L) t

/-- `ReadInode` of one entry does not walk up to the end mark. -/
def EntryInside (r : InodeRef) (s : Fat32FileSystem) (off : ℕ) : Prop :=
  s.StaysInside r (fun _ => true) off 32

/-- The entries that `Lookup` needs, and then the position of the one it has found, are got without
walking up to the end mark. -/
def LookupStays (s : Fat32FileSystem) (r : InodeRef) (name : CString) : Prop :=
  IsDots name ∨ ∃ ip L v t, s.inode? r = some ip ∧
    RanInside (EntryInside r) (readEntry r) s 0 L t ∧
    lookupScan nextResult name (ip.sz / 32 + 2) s.junk L = .ok (v, []) ∧
    ∀ g, v = some g → ∀ iq, t.inode? r = some iq →
      ¬t.MapMeetsEnd r iq ((g.off - 32) / t.info.bytesPerCluster % 2 ^ 32)

/-- The entries that `ReadDir` needs are got without walking up to the end mark. -/
def ReadDirStays (s : Fat32FileSystem) (r : InodeRef) (fpOffset buf : ℕ) (maxLen : ℤ) : Prop :=
  ∃ ip, s.inode? r = some ip ∧
    match dirStart s.junk (inum r ip) fpOffset buf maxLen with
    | (false, _, _) => True
    | (true, fpOffset, h) => ∃ L v t,
      RanInside (fun u off => off < 2 ^ 31 → EntryInside r u off) (readDirEntry r) s
        (dirOffset (inum r ip) fpOffset) L t ∧
      dirLoop nextResult s.junk (ip.sz / 32 + 2) (dirOffset (inum r ip) fpOffset)
        (dirOffset (inum r ip) fpOffset) s.junk h L = .ok (v, [])

section Table

/-! ## Walks -/

theorem fatIndex_le (h : s.Readable c) : s.fatIndex c + 4 ≤ tableEnd := by
  have hsec := h.sector_lt
  have hoff : s.fatOffsetOfCluster c ≤ c * 4 % 2 ^ 32 := Nat.mod_le ..
  have hlt : c * 4 % 2 ^ 32 < 2 ^ 32 := Nat.mod_lt _ (by decide)
  rw [fatIndex, tableEnd]
  omega

theorem fatCache_setSlot {v : ℕ} :
    (s.setSlot c v).fatCache = s.fatCache.writeLE (s.fatIndex c) 4 v := rfl

theorem zeroBytes_mark (h : s.Readable c) (hfree : s.slot c = 0) :
    (s.setSlot c endOfCluster).zeroBytes + 4 = s.zeroBytes := by
  rw [zeroBytes, zeroBytes, fatCache_setSlot, writeLE]
  exact card_zeros_blit_full (fatIndex_le h) (readLE_eq_zero_iff.mp hfree) (by decide)

theorem zeroBytes_link {v : ℕ} (hv : v % 2 ^ 32 ≠ 0) :
    (s.setSlot c v).zeroBytes < s.zeroBytes + 4 := by
  obtain ⟨i, hi, hne⟩ := exists_byte_ne_zero hv
  rw [zeroBytes, zeroBytes, fatCache_setSlot, writeLE]
  exact card_zeros_blit_lt hi hne

theorem follow_readable (h : s.Readable c) : s.follow c = s.slot c :=
  if_neg (not_lt.mpr h.le_count)

theorem getFatEntry_follow {v : ℕ} (hok : getFatEntry c s = .ok (v, s')) :
    s' = s ∧ v = s.follow c ∧ (v ≠ minusOne → s.Readable c) := by
  obtain ⟨rfl, ⟨hread, rfl⟩ | ⟨hout, rfl⟩⟩ := getFatEntry_eq_ok hok
  · exact ⟨rfl, (follow_readable hread).symm, fun _ => hread⟩
  · exact ⟨rfl, (if_pos hout).symm, fun hne => absurd rfl hne⟩

/-- The two ways a walk returns: with the volume as it was, or with less zero bytes in the table. -/
theorem bmapLoop_split (hcount : s.info.clusterCount < 2 ^ 32)
    (hok : bmapLoop m cur s = .ok (c, s')) :
    (¬MeetsEnd s.follow m cur ∧ s' = s ∧ c = arrive s.follow m cur) ∨
      (MeetsEnd s.follow m cur ∧ s'.info = s.info ∧ s'.zeroBytes < s.zeroBytes) := by
  induction m generalizing cur s with
  | zero =>
    cases hok
    exact .inl ⟨not_false, rfl, rfl⟩
  | succ m ih =>
    rw [bmapLoop] at hok
    by_cases hend : cur = endOfCluster
    · rw [if_pos hend] at hok
      cases hok
      refine .inl ⟨fun h => h.1 hend, rfl, ?_⟩
      rw [arrive, if_pos hend]
    rw [if_neg hend] at hok
    obtain ⟨now, s₁, hget, hrun⟩ := bind_eq_ok.mp hok
    obtain ⟨rfl, hnow, hread⟩ := getFatEntry_follow hget
    by_cases hmark : now = endOfCluster
    · rw [if_pos hmark] at hrun
      obtain ⟨f, s₂, halloc, hrest⟩ := bind_eq_ok.mp hrun
      obtain ⟨hfind, rfl⟩ := allocCluster_eq_ok.mp halloc
      have hf := hfind.readable f hfind.le le_rfl
      have hlt : f < 2 ^ 32 := hf.le_count.trans_lt hcount
      have hread₁ := hread (by rw [hmark]; decide)
      have hcur : (s₁.taken f).Readable cur := ⟨hread₁.le_count, hread₁.sector_lt⟩
      rw [bind_of_ok (setFatEntry_readable hcur)] at hrest
      have hinfo : ((s₁.taken f).setSlot cur f).info = s₁.info := rfl
      have hmarked := zeroBytes_mark hf hfind.free
      have hlinked : ((s₁.taken f).setSlot cur f).zeroBytes < (s₁.taken f).zeroBytes + 4 :=
        zeroBytes_link (by have := hfind.le; omega)
      have htaken : (s₁.taken f).zeroBytes = (s₁.setSlot f endOfCluster).zeroBytes := rfl
      refine .inr ⟨⟨hend, .inl (hnow ▸ hmark)⟩, ?_⟩
      rcases ih (hinfo ▸ hcount) hrest with ⟨-, rfl, -⟩ | ⟨-, hi, hz⟩
      · exact ⟨rfl, by omega⟩
      · exact ⟨hi.trans hinfo, by omega⟩
    · rw [if_neg hmark] at hrun
      rw [hnow] at hrun hmark
      rcases ih hcount hrun with ⟨hnot, rfl, rfl⟩ | ⟨hmeets, hi, hz⟩
      · refine .inl ⟨fun h => h.2.elim hmark hnot, rfl, ?_⟩
        rw [arrive, if_neg hend]
      · exact .inr ⟨⟨hend, .inr hmeets⟩, hi, hz⟩

namespace LeavesIff

variable {P Q : Prop} {u : Fat32FileSystem}

theorem info (h : LeavesIff P s t) : t.info = s.info := by
  rcases h with ⟨-, h⟩ | ⟨-, h, -⟩
  · exact h.info
  · exact h

theorem zeroBytes_le (h : LeavesIff P s t) : t.zeroBytes ≤ s.zeroBytes := by
  rcases h with ⟨-, h⟩ | ⟨-, -, h⟩
  · rw [zeroBytes, zeroBytes, h.fatCache]
  · exact h.le

theorem of_same (hP : P) (h : SameVolume s t) : LeavesIff P s t := .inl ⟨hP, h⟩

theorem iff (h : LeavesIff P s t) : SameVolume s t ↔ P := by
  rcases h with ⟨hP, hsame⟩ | ⟨hP, -, hlt⟩
  · exact iff_of_true hsame hP
  · refine iff_of_false (fun hsame => ?_) hP
    rw [zeroBytes, zeroBytes, hsame.fatCache] at hlt
    exact lt_irrefl _ hlt

theorem congr (h : LeavesIff P s t) (hPQ : P ↔ Q) : LeavesIff Q s t := propext hPQ ▸ h

theorem trans (h : LeavesIff P s t) (h' : LeavesIff Q t u) : LeavesIff (P ∧ Q) s u := by
  have hle := h.zeroBytes_le
  have hle' := h'.zeroBytes_le
  rcases h with ⟨hP, hsame⟩ | ⟨hP, hinfo, hlt⟩
  · rcases h' with ⟨hQ, hsame'⟩ | ⟨hQ, hinfo', hlt'⟩
    · exact .inl ⟨⟨hP, hQ⟩, hsame'.info.trans hsame.info, hsame'.disk.trans hsame.disk,
        hsame'.fatCache.trans hsame.fatCache⟩
    · exact .inr ⟨fun hPQ => hQ hPQ.2, hinfo'.trans hsame.info, by omega⟩
  · exact .inr ⟨fun hPQ => hP hPQ.1, h'.info.trans hinfo, by omega⟩

theorem followed (h : LeavesIff P s t) (hsame : SameVolume t u) : LeavesIff P s u :=
  (h.trans (.of_same trivial hsame)).congr (iff_of_eq (and_true _))

end LeavesIff

theorem follow_congr (hi : t.info = s.info) (hf : t.fatCache = s.fatCache) : t.follow = s.follow := by
  funext c
  simp only [follow, slot, fatIndex, fatSectorOfCluster, fatOffsetOfCluster, hi, hf]

theorem walkStart_congr (hi : t.info = s.info) : walkStart t r ip k = walkStart s r ip k := by
  simp only [walkStart, startOf, hi]

theorem walksInside_congr {ks : List ℕ} (hi : t.info = s.info) (hf : t.fatCache = s.fatCache) :
    t.WalksInside r ip ks ↔ s.WalksInside r ip ks := by
  have hfollow := follow_congr hi hf
  induction ks generalizing ip with
  | nil => exact Iff.rfl
  | cons k ks ih =>
    have hmeets : t.MapMeetsEnd r ip k ↔ s.MapMeetsEnd r ip k := by
      simp only [MapMeetsEnd, hfollow, walkStart_congr hi]
    have hmove : t.moveCursor r ip k = s.moveCursor r ip k := by
      simp only [moveCursor, hfollow, walkStart_congr hi]
    rw [WalksInside, WalksInside, hmeets, hmove]
    exact and_congr_right fun _ => ih

/-- `bmap` tells whether its walk has met the end mark, and if not where it ends. -/
theorem bmap_leaves (hcount : s.info.clusterCount < 2 ^ 32) (hip : s.inode? r = some ip)
    (hok : bmap r k s = .ok (c, s')) : LeavesIff (¬s.MapMeetsEnd r ip k) s s' ∧
      ∃ ip', s'.inode? r = some ip' ∧ (¬s.MapMeetsEnd r ip k → ip' = s.moveCursor r ip k) := by
  obtain ⟨cur, s₁, hloop, hcase⟩ := bmap_eq_ok hip hok
  have hip₁ : s₁.inode? r = some ip := bmapLoop_keeps (I := fun t => t.inode? r = some ip)
    (fun _ _ _ h => by cases r <;> exact h) _ _ hip hloop
  have hsame : ∀ iq, SameVolume s₁ (s₁.setInode r iq) := fun iq =>
    ⟨info_setInode .., disk_setInode .., fatCache_setInode ..⟩
  rcases bmapLoop_split hcount hloop with ⟨hnot, rfl, rfl⟩ | ⟨hmeets, hinfo, hlt⟩
  · rcases hcase with ⟨hend, -, rfl⟩ | ⟨hne, rfl, rfl⟩
    · refine ⟨.of_same hnot ⟨rfl, rfl, rfl⟩, ip, hip, fun _ => ?_⟩
      rw [moveCursor, if_pos hend]
    · refine ⟨.of_same hnot (hsame _), _, by rw [inode?_setInode, if_pos rfl], fun _ => ?_⟩
      rw [moveCursor, if_neg hne]
  · have hfills : LeavesIff (¬s.MapMeetsEnd r ip k) s s₁ := .inr ⟨not_not.mpr hmeets, hinfo, hlt⟩
    rcases hcase with ⟨-, -, rfl⟩ | ⟨-, -, rfl⟩
    · exact ⟨hfills, ip, hip₁, fun hnot => absurd hmeets hnot⟩
    · exact ⟨hfills.followed (hsame _), _, by rw [inode?_setInode, if_pos rfl],
        fun hnot => absurd hmeets hnot⟩

theorem meetsEnd_iff {l : List ℕ} {S : Set ℕ} {a i : ℕ} (hg : s.info.FatGeometry)
    (h : Chains s S fun _ => l) (ha : a ∈ S) (hi : l[i]? = some cur) :
    MeetsEnd s.follow m cur ↔ l.length ≤ i + m := by
  induction m generalizing i cur with
  | zero =>
    obtain ⟨hlt, -⟩ := List.getElem?_eq_some_iff.mp hi
    exact iff_of_false not_false (by omega)
  | succ m ih =>
    obtain ⟨hlt, hcur⟩ := List.getElem?_eq_some_iff.mp hi
    have hmem : cur ∈ l := List.mem_of_getElem? hi
    have hchain := h.chain a ha
    have hfollow : s.follow cur = s.entry cur :=
      (getFatEntry_follow (getFatEntry_eq hg (h.inCache a ha cur hmem))).2.1.symm
    rw [MeetsEnd, hfollow, ← hcur]
    rcases Nat.lt_or_eq_of_le (Nat.succ_le_of_lt hlt) with hin | hlast
    · rw [hchain.next_getElem hin, and_iff_right (hchain.ne_of_mem (List.getElem_mem hlt)),
        or_iff_right (hchain.ne_of_mem (List.getElem_mem hin)), ih (List.getElem?_eq_getElem hin)]
      omega
    · refine iff_of_true ⟨hchain.ne_of_mem (List.getElem_mem hlt), .inl ?_⟩ (by omega)
      exact hchain.next_last hlast

theorem OnChain.mapMeetsEnd_iff {l : List ℕ} (hg : s.info.FatGeometry) (h : s.OnChain r ip l)
    (hk : k ≤ 2 ^ 21) : s.MapMeetsEnd r ip k ↔ l.length ≤ k := by
  rw [MapMeetsEnd, walkStart]
  by_cases hlogi : k ≥ ip.iLogi
  · rcases h.cursor with hcur | hfar
    · have hi : signExtend ip.iLogi = ip.iLogi := if_pos (by omega)
      rw [if_pos hlogi, hi, meetsEnd_iff hg h.chains rfl hcur]
      omega
    · omega
  · have hfirst : l[0]? = some (s.startOf r ip) := by
      rw [List.getElem?_eq_getElem h.length_pos, (h.chains.chain _ rfl).getElem_zero h.length_pos]
    rw [if_neg hlogi, meetsEnd_iff hg h.chains rfl hfirst]
    omega

end Table

section Transfers

/-! ## Transfers -/

variable {dst : ℕ → Bool} {fuel total : ℕ} {out : List UInt8} {q : ℤ × List UInt8}

theorem sameVolume_buffers (b : BufferLayer) : SameVolume s { s with buffers := b } := ⟨rfl, rfl, rfl⟩

theorem readLoop_leaves (hcount : s.info.clusterCount < 2 ^ 32) (hip : s.inode? r = some ip)
    (hok : readLoop r dst n fuel total off out s = .ok (q, s')) :
    LeavesIff (s.WalksInside r ip (clustersRead dst n s.info.bytesPerCluster fuel total off)) s
      s' := by
  induction fuel generalizing total off out s ip with
  | zero => cases hok
  | succ fuel ih =>
    rw [readLoop] at hok
    rw [clustersRead]
    by_cases hlt : total < n
    · rw [if_pos hlt, get_bind] at hok
      rw [if_pos hlt]
      obtain ⟨c, s₁, hmap, hrun⟩ := bind_eq_ok.mp hok
      obtain ⟨i, s₂, hread, hrest⟩ := bind_eq_ok.mp hrun
      obtain ⟨hleaves, ip', hip', hmoved⟩ := bmap_leaves hcount hip hmap
      obtain ⟨l, -, rfl⟩ := bufRead_eq_ok hread
      rw [get_bind] at hrest
      dsimp only at hrest ⊢
      have hread := hleaves.followed (sameVolume_buffers l)
      generalize min (n - total) (s.info.bytesPerCluster - off % s.info.bytesPerCluster) = nread
        at hrest ⊢
      by_cases hshort : prefixLen (fun j => dst (total + j)) nread < nread
      · rw [if_pos hshort] at hrest ⊢
        cases hrest
        exact hread.congr (iff_of_eq (and_true _)).symm
      · rw [if_neg hshort] at hrest ⊢
        have hfree := hleaves.followed (sameVolume_buffers (l.freeBuffer i))
        have hnode : ({ s₁ with buffers := l.freeBuffer i } : Fat32FileSystem).inode? r =
          some ip' := by
          rw [← hip']
          cases r <;> rfl
        have hloop := ih (hfree.info ▸ hcount) hnode hrest
        refine (hfree.trans hloop).congr ?_
        rw [WalksInside]
        refine and_congr_right fun hnot => ?_
        have hsame := hfree.iff.mpr hnot
        rw [hmoved hnot, walksInside_congr hsame.info hsame.fatCache, hsame.info]
    · rw [if_neg hlt, pure_apply, Except.ok.injEq, Prod.mk.injEq] at hok
      rw [if_neg hlt, ← hok.2]
      exact .of_same trivial ⟨rfl, rfl, rfl⟩

theorem staysInside_iff (hip : s.inode? r = some ip) : s.StaysInside r dst off n ↔
    off > ip.sz ∨ (off + n) % 2 ^ 64 < off ∨
      s.WalksInside r ip (clustersRead dst (if off + n > ip.sz then ip.sz - off else n)
        s.info.bytesPerCluster ((if off + n > ip.sz then ip.sz - off else n) + 1) 0 off) := by
  constructor
  · exact fun h => h ip hip
  · intro h iq hiq
    rw [hip] at hiq
    cases hiq
    exact h

theorem readInode_leaves (hcount : s.info.clusterCount < 2 ^ 32)
    (hok : readInode r dst off n s = .ok (q, s')) : LeavesIff (s.StaysInside r dst off n) s s' := by
  rw [readInode] at hok
  obtain ⟨ip, s₁, hnode, hrun⟩ := bind_eq_ok.mp hok
  obtain ⟨hip, rfl⟩ := inode_eq_ok hnode
  rw [staysInside_iff hip]
  by_cases hout : off > ip.sz ∨ (off + n) % 2 ^ 64 < off
  · rw [if_pos hout] at hrun
    cases hrun
    exact .of_same (hout.elim .inl fun h => .inr (.inl h)) ⟨rfl, rfl, rfl⟩
  · rw [if_neg hout] at hrun
    rw [not_or] at hout
    rw [or_iff_right hout.1, or_iff_right hout.2]
    exact readLoop_leaves hcount hip hrun

end Transfers

section Directories

/-! ## Directories -/

variable {α : Type} {Q : Fat32FileSystem → ℕ → Prop} {rd : ℕ → FsM (Option ByteMem)}
  {p : FsM α} {P : StateT (List (Option ByteMem)) Kernel α} {v : α} {L : List (Option ByteMem)}

def Watched (Q : Fat32FileSystem → ℕ → Prop) (rd : ℕ → FsM (Option ByteMem)) : Prop :=
  ∀ ⦃s off v s'⦄, s.info.clusterCount < 2 ^ 32 → rd off s = .ok (v, s') → LeavesIff (Q s off) s s'

theorem RanInside.ran (h : RanInside Q rd s off L t) : Ran rd s off L t := by
  induction h with
  | nil => exact .nil
  | cons hq h hL ih => exact .cons h ih

theorem ranInside_cons {w : Option ByteMem} (h : rd off s = .ok (w, s')) :
    RanInside Q rd s off (w :: L) t ↔ Q s off ∧ RanInside Q rd s' (off + 32) L t := by
  constructor
  · intro hran
    cases hran with
    | cons hq h' hL =>
      rw [h] at h'
      cases h'
      exact ⟨hq, hL⟩
  · exact fun ⟨hq, hL⟩ => .cons hq h hL

theorem Watched.ran (hw : Watched Q rd) (hcount : s.info.clusterCount < 2 ^ 32)
    (h : Ran rd s off L t) : LeavesIff (RanInside Q rd s off L t) s t := by
  induction h with
  | nil => exact .of_same .nil ⟨rfl, rfl, rfl⟩
  | cons h hL ih =>
    have hread := hw hcount h
    exact (hread.trans (ih (hread.info ▸ hcount))).congr (ranInside_cons h).symm

theorem Watched.traced (hw : Watched Q rd) (hcount : s.info.clusterCount < 2 ^ 32)
    (hp : Traced rd off p P) (hok : p s = .ok (v, t)) :
    LeavesIff (∃ L, RanInside Q rd s off L t ∧ P L = .ok (v, [])) s t := by
  obtain ⟨L, hran, hL⟩ := (hp s v t).mp hok
  refine (hw.ran hcount hran).congr ⟨fun h => ⟨L, h, hL⟩, ?_⟩
  rintro ⟨L', hin, -⟩
  exact (hw.ran hcount hran).iff.mp ((hw.ran hcount hin.ran).iff.mpr hin)

theorem Traced.exists_iff {C : α → Fat32FileSystem → Prop} (hp : Traced rd off p P)
    (hok : p s = .ok (v, t)) :
    (∃ L v' t', RanInside Q rd s off L t' ∧ P L = .ok (v', []) ∧ C v' t') ↔
      (∃ L, RanInside Q rd s off L t ∧ P L = .ok (v, [])) ∧ C v t := by
  constructor
  · rintro ⟨L, v', t', hin, hL, hC⟩
    have hok' : p s = .ok (v', t') := (hp s v' t').mpr ⟨L, hin.ran, hL⟩
    rw [hok] at hok'
    cases hok'
    exact ⟨⟨L, hin, hL⟩, hC⟩
  · rintro ⟨⟨L, hin, hL⟩, hC⟩
    exact ⟨L, v, t, hin, hL, hC⟩

theorem readEntry_watched (r : InodeRef) : Watched (EntryInside r) (readEntry r) := by
  intro s off v s' hcount hok
  obtain ⟨⟨q, out⟩, s₁, hread, hrest⟩ := bind_eq_ok.mp hok
  cases hrest
  exact readInode_leaves hcount hread

theorem readDirEntry_watched (r : InodeRef) :
    Watched (fun u off => off < 2 ^ 31 → EntryInside r u off) (readDirEntry r) := by
  intro s off v s' hcount hok
  rw [readDirEntry] at hok
  by_cases hoff : off < 2 ^ 31
  · rw [if_pos hoff] at hok
    exact (readEntry_watched r hcount hok).congr (imp_iff_right hoff).symm
  · rw [if_neg hoff] at hok
    cases hok
    exact .of_same (fun h => absurd h hoff) ⟨rfl, rfl, rfl⟩

theorem entryPos_leaves {g : Scanned} {pos : ℕ} (hcount : s.info.clusterCount < 2 ^ 32)
    (hok : entryPos r g s = .ok (pos, s')) :
    LeavesIff (∀ ip, s.inode? r = some ip →
      ¬s.MapMeetsEnd r ip ((g.off - 32) / s.info.bytesPerCluster % 2 ^ 32)) s s' := by
  rw [entryPos, get_bind] at hok
  obtain ⟨c, s₁, hmap, hrest⟩ := bind_eq_ok.mp hok
  cases hrest
  obtain ⟨ip, hip⟩ : ∃ ip, s.inode? r = some ip := by
    rw [bmap, get_bind] at hmap
    obtain ⟨ip, s₂, hnode, -⟩ := bind_eq_ok.mp hmap
    exact ⟨ip, (inode_eq_ok hnode).1⟩
  refine (bmap_leaves hcount hip hmap).1.congr ⟨fun h iq hiq => ?_, fun h => h ip hip⟩
  rw [hip] at hiq
  cases hiq
  exact h

/-- `Lookup` leaves the volume as it is exactly when it stays inside. -/
theorem lookup_leaves {name : CString} {w : Option InodeRef} (hcount : s.info.clusterCount < 2 ^ 32)
    (hok : lookup r name s = .ok (w, s')) : LeavesIff (s.LookupStays r name) s s' := by
  by_cases hdots : IsDots name
  · exact .of_same (.inl hdots) (lookup_dots hdots hok).toSameVolume
  have hnot := not_or.mp hdots
  rw [lookup, if_neg hnot.1, if_neg hnot.2] at hok
  obtain ⟨fuel, s₁, hfuel, hrun⟩ := bind_eq_ok.mp hok
  obtain ⟨ip, s₂, hnode, hpure⟩ := bind_eq_ok.mp hfuel
  obtain ⟨hip, rfl⟩ := inode_eq_ok hnode
  cases hpure
  rw [get_bind] at hrun
  obtain ⟨v, t, hscan, hrest⟩ := bind_eq_ok.mp hrun
  have hleaves := (readEntry_watched r).traced hcount scanLoop_traced hscan
  have hpos : LeavesIff (∀ g, v = some g → ∀ iq, t.inode? r = some iq →
      ¬t.MapMeetsEnd r iq ((g.off - 32) / t.info.bytesPerCluster % 2 ^ 32)) t s' := by
    cases v with
    | none =>
      cases hrest
      exact .of_same (fun g hg => by cases hg) ⟨rfl, rfl, rfl⟩
    | some g =>
      obtain ⟨pos, t₁, hpos, hbuild⟩ := bind_eq_ok.mp hrest
      have hcore : SameCore t₁ s' :=
        ((buildInode_keeps _ _ _).bind fun _ => Keeps.pure _) (.refl t₁) hbuild
      refine ((entryPos_leaves (hleaves.info ▸ hcount) hpos).followed hcore.toSameVolume).congr ?_
      constructor
      · rintro h _ ⟨⟩
        exact h
      · exact fun h => h g rfl
  have hscanned := Traced.exists_iff (Q := EntryInside r) (C := fun v t => ∀ g, v = some g →
    ∀ iq, t.inode? r = some iq →
      ¬t.MapMeetsEnd r iq ((g.off - 32) / t.info.bytesPerCluster % 2 ^ 32)) scanLoop_traced hscan
  refine (hleaves.trans hpos).congr (hscanned.symm.trans ?_)
  rw [LookupStays, or_iff_right hdots]
  constructor
  · rintro ⟨L, v', t', h⟩
    exact ⟨ip, L, v', t', hip, h⟩
  · rintro ⟨iq, L, v', t', hiq, h⟩
    rw [hip] at hiq
    cases hiq
    exact ⟨L, v', t', h⟩

/-- `ReadDir` leaves the volume as it is exactly when it stays inside. -/
theorem readDir_leaves {fpOffset buf : ℕ} {maxLen : ℤ} {w : ℤ × List (ℕ × List UInt8) × ℕ}
    (hcount : s.info.clusterCount < 2 ^ 32) (hok : readDir r fpOffset buf maxLen s = .ok (w, s')) :
    LeavesIff (s.ReadDirStays r fpOffset buf maxLen) s s' := by
  rw [readDir, get_bind] at hok
  obtain ⟨ip, s₁, hnode, hrun⟩ := bind_eq_ok.mp hok
  obtain ⟨hip, rfl⟩ := inode_eq_ok hnode
  have hstays : s₁.ReadDirStays r fpOffset buf maxLen ↔
      match dirStart s₁.junk (inum r ip) fpOffset buf maxLen with
      | (false, _, _) => True
      | (true, fpOffset, h) => ∃ L v t,
        RanInside (fun u off => off < 2 ^ 31 → EntryInside r u off) (readDirEntry r) s₁
          (dirOffset (inum r ip) fpOffset) L t ∧
        dirLoop nextResult s₁.junk (ip.sz / 32 + 2) (dirOffset (inum r ip) fpOffset)
          (dirOffset (inum r ip) fpOffset) s₁.junk h L = .ok (v, []) := by
    constructor
    · rintro ⟨iq, hiq, h⟩
      rw [hip] at hiq
      cases hiq
      exact h
    · exact fun h => ⟨ip, hip, h⟩
  refine LeavesIff.congr ?_ hstays.symm
  dsimp only at hrun
  rcases hstart : dirStart s₁.junk (inum r ip) fpOffset buf maxLen with ⟨room, off, h⟩
  rw [hstart] at hrun
  cases room with
  | false =>
    cases hrun
    exact .of_same trivial ⟨rfl, rfl, rfl⟩
  | true =>
    dsimp only at hrun ⊢
    rw [bind_of_ok (entryFuel_eq hip)] at hrun
    obtain ⟨v, t, hloop, hrest⟩ := bind_eq_ok.mp hrun
    cases hrest
    refine ((readDirEntry_watched r).traced hcount dirLoop_traced hloop).congr ?_
    have hscanned := Traced.exists_iff (Q := fun u off => off < 2 ^ 31 → EntryInside r u off)
      (C := fun _ _ => True) dirLoop_traced hloop
    simpa only [and_true] using hscanned.symm

end Directories

/-- A read of a file, a lookup of a name or a listing that has returned has left the table and the
disk as they were exactly when none of its walks along the chain met the end mark. -/
theorem read_unchanged_iff (s : Fat32FileSystem) (r : InodeRef)
    (hcount : s.info.clusterCount < 2 ^ 32) :
    (∀ dst off n v s', readInode r dst off n s = .ok (v, s') →
      (SameVolume s s' ↔ s.StaysInside r dst off n)) ∧
    (∀ name v s', lookup r name s = .ok (v, s') → (SameVolume s s' ↔ s.LookupStays r name)) ∧
    ∀ fpOffset buf maxLen v s', readDir r fpOffset buf maxLen s = .ok (v, s') →
      (SameVolume s s' ↔ s.ReadDirStays r fpOffset buf maxLen) :=
  ⟨fun _ _ _ _ _ hok => (readInode_leaves hcount hok).iff,
    fun _ _ _ hok => (lookup_leaves hcount hok).iff,
    fun _ _ _ _ _ hok => (readDir_leaves hcount hok).iff⟩

theorem read_unchanged_iff_oneFile : ∃ v s', lookup .root nameA oneFile = .ok (v, s') ∧
    (SameVolume oneFile s' ↔ oneFile.LookupStays .root nameA) := by
  have hcount : oneFile.info.clusterCount < 2 ^ 32 := by decide +kernel
  cases hrun : lookup .root nameA oneFile with
  | ok p => exact ⟨p.1, p.2, rfl, (read_unchanged_iff oneFile .root hcount).2.1 nameA p.1 p.2 hrun⟩
  | error e =>
    have hreturns : (match lookup .root nameA oneFile with
        | .ok _ => true
        | .error _ => false) = true := by decide +kernel
    rw [hrun] at hreturns
    cases hreturns

def fullDirectory : Fat32FileSystem := mount bootMemory (oneFileDisk.fill 59392 4096 0xe5)

/-- To find that there is no `A`, the directory is given another cluster. -/
theorem lookup_fullDirectory : ∃ s', lookup .root nameA fullDirectory = .ok (none, s') ∧
    fullDirectory.slot 4 = endOfCluster ∧ s'.slot 4 = 3 ∧ ¬SameVolume fullDirectory s' := by
  have hrun : (match lookup .root nameA fullDirectory with
      | .ok (none, s') => decide (fullDirectory.slot 4 = endOfCluster ∧ s'.slot 4 = 3 ∧
          fullDirectory.fatCache 16 ≠ s'.fatCache 16)
      | _ => false) = true := by decide +kernel
  split at hrun
  · rename_i s' hok
    obtain ⟨hbefore, hafter, hne⟩ := of_decide_eq_true hrun
    exact ⟨s', hok, hbefore, hafter, fun hsame => hne (congrFun hsame.fatCache 16).symm⟩
  · cases hrun

end StartOS.Fat32FileSystem
