import Mathlib.Tactic.IntervalCases
import StartOS.Fs.BufferRelease
import StartOS.Fs.LongName

/-! # A long name comes back

The long entries of a name lie before its short entry, the last piece first. This
module says where `Create` puts them, that the short entry is read back as it was
written, so that the checksum is that of the stored name, and that the pieces
give the name again.
-/

namespace StartOS

namespace BufferLayer

variable {s s' : BufferLayer} {b dev : ℤ} {disk : ByteMem} {e : Option ℕ} {i j c n : ℕ}

/-- Buffer `i` is the one a search for the block stops at. -/
structure First (s : BufferLayer) (b : ℤ) (i : ℕ) : Prop where
  lt : i < bufferNum
  blockno : (s.bufCache i).blockno = b
  before : ∀ j < i, (s.bufCache j).blockno ≠ b

theorem First.congr (h : First s b i)
    (hs : ∀ j, (s'.bufCache j).blockno = (s.bufCache j).blockno) : First s' b i :=
  ⟨h.lt, (hs i).trans h.blockno, fun j hj => (hs j).symm ▸ h.before j hj⟩

theorem First.scan_eq (h : First s b i) (hn : n ≤ bufferNum) (hi : bufferNum - n ≤ i) :
    s.scan b n e = .hit i := by
  induction n generalizing e with
  | zero =>
    have := h.lt
    omega
  | succ n ih =>
    rw [scan]
    by_cases hb : (s.bufCache (bufferNum - (n + 1))).blockno = b
    · have hle : i ≤ bufferNum - (n + 1) := not_lt.mp fun hlt => h.before _ hlt hb
      rw [if_pos hb, le_antisymm hi hle]
    · have hne : bufferNum - (n + 1) ≠ i := fun he => hb (he ▸ h.blockno)
      rw [if_neg hb]
      exact ih (by omega) (by omega)

theorem first_of_scan (hn : n ≤ bufferNum) (h : s.scan b n e = .hit i)
    (hb : ∀ j < bufferNum - n, (s.bufCache j).blockno ≠ b) : First s b i := by
  induction n generalizing e with
  | zero =>
    cases e with
    | none => cases h
    | some k => cases h
  | succ n ih =>
    rw [scan] at h
    split at h
    · rename_i hself
      cases h
      exact ⟨bufferNum_sub_lt n, hself, hb⟩
    · rename_i hself
      refine ih (by omega) h fun j hj => ?_
      rcases Nat.lt_or_ge j (bufferNum - (n + 1)) with hlt | hge
      · exact hb j hlt
      · rwa [show j = bufferNum - (n + 1) by omega]

/-- A later search for the block stops at the buffer that `read` has returned. -/
theorem read_first (h : s.read disk dev c = .ok (i, s')) :
    First s' (toInt32 c) i ∧ (s'.bufCache i).valid = true := by
  obtain ⟨s₁, ha⟩ := read_eq_ok h
  rw [read_of_alloc ha, Except.ok.injEq, Prod.mk.injEq] at h
  obtain ⟨-, rfl⟩ := h
  have hfirst : First s₁ (toInt32 c) i := by
    unfold allocBuffer at ha
    cases hsc : s.scan (toInt32 c) bufferNum none with
    | full => rw [hsc] at ha; cases ha
    | hit k =>
      have hk := first_of_scan le_rfl hsc fun j hj => absurd hj (by omega)
      rw [hsc] at ha
      simp only at ha
      split at ha
      · cases ha
      · cases ha
        refine ⟨hk.lt, ?_, fun j hj => ?_⟩
        · rw [setBuf_self]
          exact hk.blockno
        · rw [setBuf_of_ne _ _ hj.ne]
          exact hk.before j hj
    | evict k =>
      have hk := scan_sound (s := s) (e := none) (toInt32 c) (le_refl bufferNum) (by simp)
      rw [hsc] at ha hk
      simp only at ha hk
      split at ha
      · cases ha
      · cases ha
        refine ⟨hk.1, ?_, fun j hj => ?_⟩
        · rw [setBuf_self]
        · rw [setBuf_of_ne _ _ hj.ne]
          exact hk.2 j (by omega) (hj.trans hk.1)
  refine ⟨⟨hfirst.lt, ?_, fun j hj => ?_⟩, ?_⟩
  · rw [setBuf_self]
    exact hfirst.blockno
  · rw [setBuf_of_ne _ _ hj.ne]
    exact hfirst.before j hj
  · rw [setBuf_self]

theorem First.read_eq (h : First s (toInt32 c) i) (hv : (s.bufCache i).valid = true)
    (hok : s.read disk dev c = .ok (j, s')) :
    j = i ∧ (s'.bufCache i).data = (s.bufCache i).data := by
  have hscan : s.scan (toInt32 c) bufferNum none = .hit i := h.scan_eq le_rfl (by omega)
  obtain ⟨s₁, ha⟩ := read_eq_ok hok
  rw [read_of_alloc ha, Except.ok.injEq, Prod.mk.injEq] at hok
  obtain ⟨-, rfl⟩ := hok
  rw [allocBuffer, hscan] at ha
  simp only at ha
  split at ha
  · cases ha
  · cases ha
    refine ⟨rfl, ?_⟩
    rw [setBuf_self, setBuf_self]
    exact if_pos hv

end BufferLayer

namespace Fat32FileSystem

open Hoare BufferLayer

variable {s s' s₁ s₂ s₃ : Fat32FileSystem} {dir r : InodeRef} {ip : Inode} {name : CString}
  {mode n i k seq off c c' : ℕ} {checksum : UInt8} {dst entry : ByteMem} {t : List (ℕ × ByteMem)}

section Decode

/-! ## The pieces -/

/-- The name `ReadDir` makes of the long entries of a group. -/
def decodeName (longs : List ByteMem) : Option ByteMem :=
  longs.foldlM (fun tmp entry => copylfn entry tmp) fun _ => 0

def longsFrom (name : CString) (checksum : UInt8) (n : ℕ) : ℕ → List ByteMem
  | 0 => []
  | k + 1 => longEntry name checksum n (k + 1) :: longsFrom name checksum n k

def sequenceByte (n seq : ℕ) : UInt8 := UInt8.ofNat (if seq = n then seq ||| 0x40 else seq)

theorem longEntry_sequence : longEntry name checksum n seq 0 = sequenceByte n seq := by
  rw [longEntry, ByteMem.fill_of_not_mem (by omega), ByteMem.fill_of_not_mem (by omega),
    copyCharToWchar_of_not_mem (by omega), copyCharToWchar_of_not_mem (by omega),
    copyCharToWchar_of_not_mem (by omega), ByteMem.writeLE, ByteMem.blit_of_mem le_rfl (by omega),
    Nat.sub_self, pow_zero, Nat.div_one, sequenceByte]

theorem longEntry_attrib : longEntry name checksum n seq 11 = 0x0f :=
  ByteMem.fill_of_mem le_rfl (by omega)

theorem longEntry_checksum : longEntry name checksum n seq 13 = checksum :=
  (ByteMem.fill_of_not_mem (by omega)).trans (ByteMem.fill_of_mem le_rfl (by omega))

theorem sequenceByte_toNat (h₁ : 1 ≤ seq) (h₄ : seq ≤ 4) :
    (sequenceByte n seq &&& 0xbf).toNat = seq := by
  rw [sequenceByte]
  split <;> interval_cases seq <;> rfl

theorem copylfn_longEntry (h₁ : 1 ≤ seq) (h₄ : seq ≤ 4) :
    copylfn (longEntry name checksum n seq) dst =
      some (dst.blit (13 * (seq - 1)) 13 fun i => name.bytes (13 * (seq - 1) + i)) := by
  have hfirst : ∀ i < 5, longEntry name checksum n seq (1 + 2 * i) =
      name.bytes (13 * (seq - 1) + i) := fun i hi => by
    rw [← longEntry_charPos checksum n (by omega), charPos, if_pos hi]
  have hsecond : ∀ i < 6, longEntry name checksum n seq (14 + 2 * i) =
      name.bytes (13 * (seq - 1) + (5 + i)) := fun i hi => by
    rw [← longEntry_charPos checksum n (by omega), charPos, if_neg (by omega),
      if_pos (by omega)]
    exact congrArg _ (by omega)
  have hthird : ∀ i < 2, longEntry name checksum n seq (28 + 2 * i) =
      name.bytes (13 * (seq - 1) + (11 + i)) := fun i hi => by
    rw [← longEntry_charPos checksum n (by omega), charPos, if_neg (by omega),
      if_neg (by omega)]
    exact congrArg _ (by omega)
  rw [copylfn, longEntry_sequence, sequenceByte_toNat h₁ h₄]
  dsimp only
  have h₁₁ := ByteMem.blit_append (m := dst) (a := 13 * (seq - 1)) (n := 5) (k := 6)
    (f := fun i => name.bytes (13 * (seq - 1) + i)) hsecond
  have h₁₃ := ByteMem.blit_append (m := dst) (a := 13 * (seq - 1)) (n := 11) (k := 2)
    (f := fun i => name.bytes (13 * (seq - 1) + i)) hthird
  rw [if_neg (by omega), ByteMem.blit_congr hfirst, h₁₁, h₁₃]

theorem decode_longsFrom (h₄ : k ≤ 4) :
    (longsFrom name checksum n k).foldlM (fun tmp entry => copylfn entry tmp) dst =
      some (dst.blit 0 (13 * k) name.bytes) := by
  induction k generalizing dst with
  | zero => rw [longsFrom, List.foldlM_nil, Nat.mul_zero, ByteMem.blit_zero]; rfl
  | succ k ih =>
    rw [longsFrom, List.foldlM_cons, copylfn_longEntry k.succ_pos h₄, Option.bind_eq_bind,
      Option.bind_some, ih (by omega)]
    refine congrArg some ?_
    have hjoin := ByteMem.blit_prepend (m := dst) (a := 0) (n := 13 * k) (k := 13) (f := name.bytes)
      (g := fun i => name.bytes (13 * k + i)) fun _ _ => rfl
    rw [Nat.zero_add] at hjoin
    exact hjoin

theorem decodeName_longsFrom (h : name.strlen ≤ 52) : ∃ tmp,
    decodeName (longsFrom name checksum n name.lfnNum) = some tmp ∧
      (∀ i < name.strlen, tmp i = name.bytes i) ∧ tmp name.strlen = 0 := by
  have hnum : name.strlen ≤ 13 * name.lfnNum := by rw [CString.lfnNum]; omega
  refine ⟨_, decode_longsFrom (by rw [CString.lfnNum]; omega), fun i hi => ?_, ?_⟩
  · rw [ByteMem.blit_of_mem (Nat.zero_le i) (by omega), Nat.sub_zero]
  · by_cases hlt : name.strlen < 13 * name.lfnNum
    · rw [ByteMem.blit_of_mem (Nat.zero_le _) (by omega), Nat.sub_zero, name.nul]
    · rw [ByteMem.blit_of_not_mem (by omega)]

theorem mem_longsFrom {e : ByteMem} : e ∈ longsFrom name checksum n k ↔
    ∃ seq, 1 ≤ seq ∧ seq ≤ k ∧ e = longEntry name checksum n seq := by
  induction k with
  | zero =>
    rw [longsFrom]
    constructor
    · intro h
      cases h
    · rintro ⟨seq, h₁, h₀, -⟩
      omega
  | succ k ih =>
    rw [longsFrom, List.mem_cons, ih]
    constructor
    · rintro (rfl | ⟨seq, h₁, hk, rfl⟩)
      · exact ⟨k + 1, k.succ_pos, le_rfl, rfl⟩
      · exact ⟨seq, h₁, Nat.le_succ_of_le hk, rfl⟩
    · rintro ⟨seq, h₁, hk, rfl⟩
      rcases Nat.le_succ_iff.mp hk with hk | rfl
      · exact Or.inr ⟨seq, h₁, hk, rfl⟩
      · exact Or.inl rfl

theorem length_longsFrom : (longsFrom name checksum n k).length = k := by
  induction k with
  | zero => rfl
  | succ k ih => rw [longsFrom, List.length_cons, ih]

theorem map_sequence_longsFrom : (longsFrom name checksum n k).map (fun e => e 0) =
    (List.range k).map fun j => sequenceByte n (k - j) := by
  induction k with
  | zero => rfl
  | succ k ih =>
    rw [longsFrom, List.map_cons, ih, longEntry_sequence, List.range_succ_eq_map, List.map_cons,
      List.map_map, Nat.sub_zero]
    refine congrArg _ (List.map_congr_left fun j _ => ?_)
    simp only [Function.comp_apply, Nat.succ_eq_add_one, Nat.add_sub_add_right]

end Decode

section ReadBack

/-! ## Reading an entry back -/

theorem bmapLoop_eq_end (hg : s.info.SectorGeometry)
    (hok : bmapLoop n c s = .ok (endOfCluster, s')) : c = endOfCluster ∧ s' = s := by
  induction n generalizing c s with
  | zero =>
    cases hok
    exact ⟨rfl, rfl⟩
  | succ n ih =>
    rw [bmapLoop] at hok
    by_cases hend : c = endOfCluster
    · rw [if_pos hend] at hok
      cases hok
      exact ⟨hend, rfl⟩
    · rw [if_neg hend] at hok
      obtain ⟨now, s₁, hget, hrun⟩ := bind_eq_ok.mp hok
      obtain ⟨rfl, -⟩ := getFatEntry_eq_ok hget
      by_cases hnow : now = endOfCluster
      · rw [if_pos hnow] at hrun
        obtain ⟨f, s₂, halloc, hrun⟩ := bind_eq_ok.mp hrun
        obtain ⟨z, s₃, hset, hrun⟩ := bind_eq_ok.mp hrun
        have hinfo : s₃.info = s₁.info := by
          have h₂ := (Keeps.get.bind fun _ => allocFrom_keeps
            (I := fun t => t.info = s₁.info) (fun _ _ _ h => h) _ 2) rfl halloc
          exact setFatEntry_keeps (I := fun t => t.info = s₁.info) (fun _ _ _ h => h) _ _ h₂ hset
        exact absurd (ih (hinfo.symm ▸ hg) hrun).1 (allocCluster_ne_end hg halloc)
      · rw [if_neg hnow] at hrun
        exact absurd (ih hg hrun).1 hnow

theorem bmapLoop_from_end : bmapLoop n endOfCluster s = .ok (endOfCluster, s) := by
  cases n with
  | zero => rfl
  | succ n => rw [bmapLoop, if_pos rfl]; rfl

/-- What `bmap` uses of an inode: the cursor and the start of the file. -/
def cursorOf (s : Fat32FileSystem) (r : InodeRef) : Option (ℕ × ℕ × ℕ) :=
  (s.inode? r).map fun ip => (ip.iLogi, ip.iClus, ip.iStart)

theorem exists_of_cursorOf (h : cursorOf s r = cursorOf s' r) (hip : s'.inode? r = some ip) :
    ∃ iq, s.inode? r = some iq ∧ iq.iLogi = ip.iLogi ∧ iq.iClus = ip.iClus ∧
      iq.iStart = ip.iStart := by
  rw [cursorOf, cursorOf, hip] at h
  cases hq : s.inode? r with
  | none => rw [hq] at h; cases h
  | some iq =>
    rw [hq] at h
    simp only [Option.map_some, Option.some.injEq, Prod.mk.injEq] at h
    exact ⟨iq, rfl, h⟩

/-- Asked twice for the same logical cluster, `bmap` gives the same answer. -/
theorem bmap_again (hg : s.info.SectorGeometry) (hip : s.inode? r = some ip)
    (h₁ : bmap r k s = .ok (c, s₁)) (hinfo : s₂.info = s₁.info)
    (hcur : cursorOf s₂ r = cursorOf s₁ r) (h₂ : bmap r k s₂ = .ok (c', s₃)) : c' = c := by
  obtain ⟨cur, t, hloop, ⟨rfl, rfl, rfl⟩ | ⟨hne, rfl, rfl⟩⟩ := bmap_eq_ok hip h₁
  · -- the walk began with the mark and nothing has changed
    obtain ⟨hstart, rfl⟩ := bmapLoop_eq_end hg hloop
    obtain ⟨iq, hiq, hlogi, hclus, hst⟩ := exists_of_cursorOf hcur hip
    have hsame : walkStart s₂ r iq k = walkStart s₁ r ip k := by
      rw [walkStart, walkStart, startOf, startOf, hlogi, hclus, hst, hinfo]
    obtain ⟨cur, t, hloop₂, hcase⟩ := bmap_eq_ok hiq h₂
    rw [hsame, hstart, bmapLoop_from_end] at hloop₂
    cases hloop₂
    rcases hcase with ⟨-, hc, -⟩ | ⟨hne, -, -⟩
    · exact hc
    · exact absurd rfl hne
  · have hnode : (t.setInode r { ip with iLogi := k, iClus := c }).inode? r =
        some { ip with iLogi := k, iClus := c } := by
      rw [inode?_setInode, if_pos rfl]
    obtain ⟨iq, hiq, hlogi, hclus, -⟩ := exists_of_cursorOf hcur hnode
    obtain ⟨cur, t₂, hloop₂, hcase⟩ := bmap_eq_ok hiq h₂
    have hle : k ≤ signExtend k := by
      rw [signExtend]
      split
      · exact le_rfl
      · omega
    rw [walkStart, hlogi, hclus, if_pos le_rfl, Nat.sub_eq_zero_of_le hle] at hloop₂
    cases hloop₂
    rcases hcase with ⟨hend, -, -⟩ | ⟨-, hc, -⟩
    · exact absurd hend hne
    · exact hc

theorem readLoop_one {q : ℤ × List UInt8}
    (hmod : off % s.info.bytesPerCluster + 32 ≤ s.info.bytesPerCluster)
    (hok : readLoop r (fun _ => true) 32 33 0 off [] s = .ok (q, s')) :
    ∃ c s₁ i s₂, bmap r (off / s.info.bytesPerCluster % 2 ^ 32) s = .ok (c, s₁) ∧
      bufRead c s₁ = .ok (i, s₂) ∧
      q = (32, (List.range 32).map fun j =>
        (s₂.buffers.bufCache i).data (off % s.info.bytesPerCluster + j)) := by
  rw [readLoop, if_pos (by norm_num), get_bind] at hok
  obtain ⟨c, s₁, hb, hok⟩ := bind_eq_ok.mp hok
  obtain ⟨i, s₂, hread, hok⟩ := bind_eq_ok.mp hok
  have hmin : min (32 - 0) (s.info.bytesPerCluster - off % s.info.bytesPerCluster) = 32 := by omega
  have hall : prefixLen (fun _ => true) 32 = 32 := prefixLen_eq fun _ _ => rfl
  rw [get_bind] at hok
  simp only [hmin, hall, lt_irrefl, if_false, bufFree, modify_bind] at hok
  rw [readLoop, if_neg (by norm_num), pure_apply, Except.ok.injEq, Prod.mk.injEq] at hok
  exact ⟨c, s₁, i, s₂, hb, hread, hok.1.symm⟩

theorem writeLoop_one {q : ℤ × ℕ} (hmod : off % s.info.bytesPerCluster + 32 ≤ s.info.bytesPerCluster)
    (hok : writeLoop r (fun j => some (entry j)) 32 33 0 off s = .ok (q, s')) :
    ∃ c s₁ i s₂, bmap r (off / s.info.bytesPerCluster % 2 ^ 32) s = .ok (c, s₁) ∧
      bufRead c s₁ = .ok (i, s₂) ∧ q = (32, off + 32) ∧ ∃ disk, s' = { s₂ with
        disk := disk
        buffers := BufferLayer.freeBuffer (s₂.buffers.setBuf i { s₂.buffers.bufCache i with
          data := (s₂.buffers.bufCache i).data.blit (off % s.info.bytesPerCluster) 32 entry }) i } := by
  rw [writeLoop, if_pos (by norm_num), get_bind] at hok
  obtain ⟨c, s₁, hb, hok⟩ := bind_eq_ok.mp hok
  obtain ⟨i, s₂, hread, hok⟩ := bind_eq_ok.mp hok
  have hmin : min (32 - 0) (s.info.bytesPerCluster - off % s.info.bytesPerCluster) = 32 := by omega
  have hall : prefixLen (fun j => (some (entry (0 + j))).isSome) 32 = 32 :=
    prefixLen_eq fun _ _ => rfl
  rw [get_bind] at hok
  have hsrc : (fun j => (some (entry (0 + j))).getD 0) = entry :=
    funext fun j => by rw [Option.getD_some, Nat.zero_add]
  simp only [hmin, hall, hsrc, lt_irrefl, if_false, bufFree, bufWrite, modify_bind] at hok
  rw [writeLoop, if_neg (by norm_num), pure_apply, Except.ok.injEq, Prod.mk.injEq] at hok
  exact ⟨c, s₁, i, s₂, hb, hread, hok.1.symm, _, hok.2.symm⟩

def sizeOf (s : Fat32FileSystem) (r : InodeRef) : Option ℕ := (s.inode? r).map Inode.sz

theorem exists_of_sizeOf {z : ℕ} (h : sizeOf s r = some z) :
    ∃ ip, s.inode? r = some ip ∧ ip.sz = z := by
  rw [sizeOf, Option.map_eq_some_iff] at h
  exact h

section Sized

variable {info : Fat32Info} {z : Option ℕ}

def Sized (info : Fat32Info) (r : InodeRef) (z : Option ℕ) (s : Fat32FileSystem) : Prop :=
  s.info = info ∧ sizeOf s r = z

theorem tableFree_sized : TableFree (Sized info r z) := fun _ _ _ h => ⟨h.1, by cases r <;> exact h.2⟩

theorem bufferFree_sized : BufferFree (Sized info r z) := fun _ _ h => ⟨h.1, by cases r <;> exact h.2⟩

theorem cursorFree_sized : CursorFree r (Sized info r z) := fun s ip k c hip h =>
  ⟨(info_setInode s r _).trans h.1, by
    rw [← h.2, sizeOf, sizeOf, inode?_setInode, if_pos rfl, hip]
    rfl⟩

end Sized

/-- What `WriteInode` leaves when it has stored one entry inside the file. -/
structure Stored (s : Fat32FileSystem) (r : InodeRef) (entry : ByteMem) (off : ℕ)
    (s₁ : Fat32FileSystem) :
    Prop where
  info : s₁.info = s.info
  size : sizeOf s₁ r = sizeOf s r
  buffer : ∃ c sb i, bmap r (off / s.info.bytesPerCluster % 2 ^ 32) s = .ok (c, sb) ∧
    cursorOf s₁ r = cursorOf sb r ∧ First s₁.buffers (toInt32 c) i ∧
    (s₁.buffers.bufCache i).valid = true ∧
    ∀ j < 32, (s₁.buffers.bufCache i).data (off % s.info.bytesPerCluster + j) = entry j

theorem writeBytes_stored {v : ℤ} (hip : s.inode? r = some ip) (hsz : off + 32 ≤ ip.sz)
    (h32 : ip.sz < 2 ^ 32) (hmod : off % s.info.bytesPerCluster + 32 ≤ s.info.bytesPerCluster)
    (hok : writeBytes r entry off 32 s = .ok (v, s₁)) : Stored s r entry off s₁ := by
  rw [writeBytes, writeInode, bind_of_ok (inode_eq hip), if_neg (by omega)] at hok
  obtain ⟨⟨total, off'⟩, t, hloop, hok⟩ := bind_eq_ok.mp hok
  have hsized : Sized s.info r (sizeOf s r) t := writeLoop_keeps_of tableFree_sized cursorFree_sized
    bufferFree_sized _ _ _ _ _ ⟨rfl, rfl⟩ hloop
  obtain ⟨c, sb, i, sr, hb, hread, hq, disk, rfl⟩ := writeLoop_one hmod hloop
  cases hq
  obtain ⟨l, hl, rfl⟩ := bufRead_eq_ok hread
  obtain ⟨hfirst, hvalid⟩ := read_first hl
  set u : Fat32FileSystem := { sb with
    disk := disk
    buffers := BufferLayer.freeBuffer (l.setBuf i { l.bufCache i with
      data := (l.bufCache i).data.blit (off % s.info.bytesPerCluster) 32 entry }) i } with hu
  -- the size is not exceeded, so that only `UpdateInode` is left
  have hsize : sizeOf u r = some ip.sz := hsized.2.trans (by rw [sizeOf, hip]; rfl)
  obtain ⟨iq, hiq, hz⟩ := exists_of_sizeOf hsize
  dsimp only at hok
  rw [bind_of_ok (inode_eq hiq), if_neg (by omega)] at hok
  obtain ⟨w, s₂, hup, hok⟩ := bind_eq_ok.mp hok
  cases hok
  obtain ⟨hinfo, hbuf, hnode⟩ : s₁.info = u.info ∧ s₁.buffers = u.buffers ∧
      ∀ q, s₁.inode? q = u.inode? q :=
    updateInode_keeps (I := fun x => x.info = u.info ∧ x.buffers = u.buffers ∧
      ∀ q, x.inode? q = u.inode? q)
      (fun x _ _ h => ⟨h.1, h.2.1, fun q => Eq.trans (by cases q <;> rfl) (h.2.2 q)⟩)
      ⟨rfl, rfl, fun _ => rfl⟩ hup
  have hself : u.buffers.bufCache i = { l.bufCache i with
      data := (l.bufCache i).data.blit (off % s.info.bytesPerCluster) 32 entry
      refcnt := ((l.bufCache i).refcnt + 2 ^ 32 - 1) % 2 ^ 32
      locked := false } := by
    rw [hu, BufferLayer.freeBuffer, setBuf_self, setBuf_self]
  refine ⟨hinfo.trans hsized.1, ?_, c, sb, i, hb, ?_, ?_, ?_, fun j hj => ?_⟩
  · rw [sizeOf, hnode]
    exact hsized.2
  · rw [cursorOf, cursorOf, hnode]
    cases r <;> rfl
  · rw [hbuf]
    refine hfirst.congr fun j => ?_
    by_cases hj : j = i
    · rw [hj, hself]
    · rw [hu, BufferLayer.freeBuffer, setBuf_of_ne _ _ hj, setBuf_of_ne _ _ hj]
  · rw [hbuf, hself]
    exact hvalid
  · rw [hbuf, hself]
    exact (ByteMem.blit_of_mem (by omega) (by omega)).trans
      (congrArg entry (Nat.add_sub_cancel_left ..))

theorem Stored.readBack {q : ℤ × List UInt8} (h : Stored s r entry off s₁)
    (hg : s.info.SectorGeometry) (hip : s.inode? r = some ip) (hsz : off + 32 ≤ ip.sz)
    (h32 : ip.sz < 2 ^ 32) (hmod : off % s.info.bytesPerCluster + 32 ≤ s.info.bytesPerCluster)
    (hok : readInode r (fun _ => true) off 32 s₁ = .ok (q, s₂)) :
    q.2 = (List.range 32).map entry := by
  obtain ⟨c, sb, i, hb, hcur, hfirst, hvalid, hdata⟩ := h.buffer
  have hsize : sizeOf s₁ r = some ip.sz := h.size.trans (by rw [sizeOf, hip]; rfl)
  obtain ⟨iq, hiq, hz⟩ := exists_of_sizeOf hsize
  rw [readInode, bind_of_ok (inode_eq hiq), if_neg (by omega), if_neg (by omega)] at hok
  rw [← h.info] at hmod
  obtain ⟨c', t, i', t', hb', hread, rfl⟩ := readLoop_one hmod hok
  have hinfo : sb.info = s.info := bmap_keeps_of (I := fun t => t.info = s.info)
    (fun _ _ _ h => h) (fun t _ _ _ _ h => (info_setInode t r _).trans h) _ rfl hb
  rw [h.info] at hb'
  obtain rfl := bmap_again hg hip hb (h.info.trans hinfo.symm) hcur hb'
  obtain ⟨l, hl, rfl⟩ := bufRead_eq_ok hread
  have hbuf : t.buffers = s₁.buffers := bmap_keeps_of (I := fun t => t.buffers = s₁.buffers)
    (fun _ _ _ h => h) (fun t _ _ _ _ h => (buffers_setInode t r _).trans h) _ rfl hb'
  rw [hbuf] at hl
  obtain ⟨rfl, hsame⟩ := hfirst.read_eq hvalid hl
  refine List.map_congr_left fun j hj => ?_
  rw [h.info]
  exact (congrFun hsame _).trans (hdata j (List.mem_range.mp hj))

end ReadBack

section Slots

/-! ## The slots -/

def FreeEntry (e : ByteMem) : Prop := e 0 = 0xe5 ∨ e 0 = 0

instance (e : ByteMem) : Decidable (FreeEntry e) := inferInstanceAs (Decidable (_ ∨ _))

/-- The entries of a directory from `off` on, read one after another. -/
inductive EntriesRead (dir : InodeRef) : Fat32FileSystem → ℕ → List ByteMem → Fat32FileSystem → Prop
  | nil (s : Fat32FileSystem) (off : ℕ) : EntriesRead dir s off [] s
  | cons {s s₁ s₂ : Fat32FileSystem} {off : ℕ} {e : ByteMem} {L : List ByteMem}
      (h : readEntry dir off s = .ok (some e, s₁)) (hL : EntriesRead dir s₁ (off + 32) L s₂) :
      EntriesRead dir s off (e :: L) s₂

structure FreeTail (k : ℕ) (L : List ByteMem) : Prop where
  le : k ≤ L.length
  free : ∀ e ∈ L.drop (L.length - k), FreeEntry e

theorem FreeTail.snoc {L : List ByteMem} {e : ByteMem} (h : FreeTail k L) :
    FreeTail (if FreeEntry e then k + 1 else 0) (L ++ [e]) := by
  have hlen : (L ++ [e]).length = L.length + 1 := List.length_append
  split
  · rename_i he
    refine ⟨by rw [hlen]; exact Nat.succ_le_succ h.le, ?_⟩
    rw [hlen, Nat.add_sub_add_right, List.drop_append_of_le_length (Nat.sub_le ..)]
    intro e' hmem
    rcases List.mem_append.mp hmem with hmem | hmem
    · exact h.free e' hmem
    · rwa [List.mem_singleton.mp hmem]
  · refine ⟨Nat.zero_le _, ?_⟩
    rw [Nat.sub_zero, List.drop_length]
    intro e' hmem
    cases hmem

theorem readLoop_count {q : ℤ × List UInt8} {fuel total : ℕ} {out : List UInt8} (hle : total ≤ n)
    (hok : readLoop r (fun _ => true) n fuel total off out s = .ok (q, s')) : q.1 = toInt32 n := by
  induction fuel generalizing total off out s with
  | zero => cases hok
  | succ fuel ih =>
    rw [readLoop] at hok
    by_cases hlt : total < n
    · rw [if_pos hlt, get_bind] at hok
      obtain ⟨c, s₁, hb, hok⟩ := bind_eq_ok.mp hok
      obtain ⟨i, s₂, hread, hok⟩ := bind_eq_ok.mp hok
      rw [get_bind] at hok
      generalize hm : min (n - total)
        (s.info.bytesPerCluster - off % s.info.bytesPerCluster) = m at hok
      have hall : prefixLen (fun _ => true) m = m := prefixLen_eq fun _ _ => rfl
      simp only [hall, lt_irrefl, if_false] at hok
      exact ih (by omega) hok
    · rw [if_neg hlt, pure_apply, Except.ok.injEq, Prod.mk.injEq] at hok
      rw [← hok.1, le_antisymm hle (not_lt.mp hlt)]

theorem readLoop_zero {q : ℤ × List UInt8} {fuel total : ℕ} {out : List UInt8}
    (hz : s.info.bytesPerCluster = 0) (hlt : total < n) :
    readLoop r (fun _ => true) n fuel total off out s ≠ .ok (q, s') := by
  induction fuel generalizing out s with
  | zero =>
    intro hok
    cases hok
  | succ fuel ih =>
    intro hok
    rw [readLoop, if_pos hlt, get_bind] at hok
    obtain ⟨c, s₁, hb, hok⟩ := bind_eq_ok.mp hok
    obtain ⟨i, s₂, hread, hok⟩ := bind_eq_ok.mp hok
    have hinfo : s₂.info = s.info := bufRead_keeps_of (I := fun t => t.info = s.info)
      (fun _ _ h => h) c (bmap_keeps_of (I := fun t => t.info = s.info) (fun _ _ _ h => h)
        (fun t _ _ _ _ h => (info_setInode t r _).trans h) _ rfl hb) hread
    have hmin : min (n - total) (s.info.bytesPerCluster - off % s.info.bytesPerCluster) = 0 := by
      rw [hz, Nat.zero_sub, Nat.min_zero]
    rw [get_bind, hmin, if_neg (Nat.not_lt_zero _)] at hok
    exact ih (s := { s₂ with buffers := s₂.buffers.freeBuffer i })
      ((congrArg Fat32Info.bytesPerCluster hinfo).trans hz) hok

theorem readEntry_inside {e : ByteMem} (hip : s.inode? r = some ip)
    (hok : readEntry r off s = .ok (some e, s₁)) :
    off + 32 ≤ ip.sz ∧ 0 < s.info.bytesPerCluster := by
  obtain ⟨⟨q, out⟩, s₂, hread, hok⟩ := bind_eq_ok.mp hok
  have hq : q = 32 := by
    by_contra hne
    dsimp only at hok
    rw [if_neg hne] at hok
    cases hok
  rw [readInode, bind_of_ok (inode_eq hip)] at hread
  split at hread
  · cases hread
    cases hq
  · rename_i hin
    by_cases hclip : off + 32 > ip.sz
    · rw [if_pos hclip] at hread
      have hcount := readLoop_count (Nat.zero_le _) hread
      have hlt : ip.sz - off < 32 := by omega
      dsimp only at hcount
      rw [hq, toInt32_of_lt (by omega) (by omega)] at hcount
      omega
    · rw [if_neg hclip] at hread
      refine ⟨not_lt.mp hclip, Nat.pos_of_ne_zero fun hz => ?_⟩
      exact readLoop_zero hz (by norm_num) hread

theorem findFreeLoop_spec {fuel nfree pos z : ℕ} {pre : List ByteMem}
    (hz : sizeOf s dir = some z) (hpre : FreeTail nfree pre) (hoff : off = 32 * pre.length)
    (hok : findFreeLoop dir n fuel off nfree s = .ok (pos, s')) :
    0 < s.info.bytesPerCluster ∧ ∃ L, EntriesRead dir s off L s' ∧ FreeTail n (pre ++ L) ∧
      pos + 32 * n = 32 * (pre ++ L).length ∧ 32 * (pre ++ L).length ≤ z := by
  induction fuel generalizing off nfree pre s with
  | zero => cases hok
  | succ fuel ih =>
    obtain ⟨v, s₁, hread, hrun⟩ := bind_eq_ok.mp hok
    cases v with
    | none => cases hrun
    | some e =>
      obtain ⟨ip, hip, rfl⟩ := exists_of_sizeOf hz
      obtain ⟨hin, hpos⟩ := readEntry_inside hip hread
      have hsized : Sized s.info dir (some ip.sz) s₁ := readEntry_keeps_of tableFree_sized
        cursorFree_sized bufferFree_sized off ⟨rfl, hz⟩ hread
      have htail := hpre.snoc (e := e)
      have hlen : (pre ++ [e]).length = pre.length + 1 := List.length_append
      refine ⟨hpos, ?_⟩
      have hrun : (if (if FreeEntry e then nfree + 1 else 0) = n then
            pure (off + 32 - (if FreeEntry e then nfree + 1 else 0) * 32)
          else findFreeLoop dir n fuel (off + 32) (if FreeEntry e then nfree + 1 else 0) :
          FsM ℕ) s₁ = .ok (pos, s') := hrun
      by_cases hn : (if FreeEntry e then nfree + 1 else 0) = n
      · rw [if_pos hn] at hrun
        rw [hn] at htail
        have hle := htail.le
        obtain ⟨hp, rfl⟩ : off + 32 - (if FreeEntry e then nfree + 1 else 0) * 32 = pos ∧
          s₁ = s' := by
          cases hrun
          exact ⟨rfl, rfl⟩
        rw [hn] at hp
        refine ⟨[e], .cons hread (.nil _ _), htail, ?_, ?_⟩
        · omega
        · omega
      · rw [if_neg hn] at hrun
        obtain ⟨-, L, hL, hfree, hpos', hle⟩ := ih hsized.2 htail (by omega) hrun
        rw [List.append_assoc] at hfree hpos' hle
        exact ⟨e :: L, .cons hread hL, hfree, hpos', hle⟩

theorem EntriesRead.sized {info : Fat32Info} {z : Option ℕ} {L : List ByteMem}
    (h : EntriesRead dir s off L s') (hs : Sized info dir z s) : Sized info dir z s' := by
  induction h with
  | nil => exact hs
  | cons hread _ ih =>
    exact ih (readEntry_keeps_of tableFree_sized cursorFree_sized bufferFree_sized _ hs hread)

theorem findFreeEntry_spec {pos : ℕ} (hok : findFreeEntry dir n s = .ok (pos, s')) :
    ∃ ip L, s.inode? dir = some ip ∧ 0 < s.info.bytesPerCluster ∧ EntriesRead dir s 0 L s' ∧
      FreeTail n L ∧ pos + 32 * n = 32 * L.length ∧ 32 * L.length ≤ ip.sz := by
  obtain ⟨fuel, s₁, hfuel, hfind⟩ := bind_eq_ok.mp hok
  obtain ⟨ip, s₂, hnode, hrest⟩ := bind_eq_ok.mp hfuel
  obtain ⟨hip, rfl⟩ := inode_eq_ok hnode
  cases hrest
  have hsize : sizeOf s₁ dir = some ip.sz := by rw [sizeOf, hip]; rfl
  have hnone : FreeTail 0 [] := ⟨le_rfl, fun e he => by cases he⟩
  obtain ⟨hpos, L, hL, hfree, hlen, hle⟩ := findFreeLoop_spec hsize hnone rfl hfind
  exact ⟨ip, L, hip, hpos, hL, hfree, hlen, hle⟩

end Slots

section RoundTrip

/-! ## The entries of a name -/

def slots (off : ℕ) (es : List ByteMem) : List (ℕ × ByteMem) := es.mapIdx fun i e => (off + 32 * i, e)

theorem slots_snoc (es : List ByteMem) (e : ByteMem) :
    slots off (es ++ [e]) = slots off es ++ [(off + 32 * es.length, e)] := by
  rw [slots, List.mapIdx_append, List.mapIdx_singleton, Nat.zero_add]
  rfl

theorem longsFrom_eq : longsFrom name checksum n k =
    ((List.range k).map fun j => longEntry name checksum n (1 + j)).reverse := by
  induction k with
  | zero => rfl
  | succ k ih =>
    rw [longsFrom, ih, List.range_succ, List.map_append, List.reverse_append, List.map_singleton,
      List.reverse_singleton, List.singleton_append, Nat.add_comm 1 k]

/-- The loop of `Create` fills the slots from the last one on backwards. -/
theorem longTrace_reverse (base : ℕ) (hoff : off + 32 = base + 32 * n ∨ n = 0)
    (hlt : base + 32 * n < 2 ^ 32)
    (hok : longTrace dir name checksum k n seq off s = .ok (t, s')) :
    t.reverse = slots base ((List.range n).map fun j =>
      longEntry name checksum k (seq + j)).reverse := by
  induction n generalizing seq off s t with
  | zero =>
    cases hok
    rfl
  | succ n ih =>
    obtain ⟨v, s₁, hw, hok⟩ := bind_eq_ok.mp hok
    obtain ⟨rest, s₂, hrest, hok⟩ := bind_eq_ok.mp hok
    cases hok
    have hoff : off = base + 32 * n := by omega
    have htail := ih (by omega) (by omega) hrest
    have hmap : ((List.range n).map fun j => longEntry name checksum k (seq + (j + 1))) =
        (List.range n).map fun j => longEntry name checksum k (seq + 1 + j) :=
      List.map_congr_left fun j _ => congrArg _ (by omega)
    rw [List.reverse_cons, htail, List.range_succ_eq_map, List.map_cons, List.map_map,
      List.reverse_cons, slots_snoc, List.length_reverse, List.length_map, List.length_range, hoff]
    simp only [Function.comp_def, Nat.succ_eq_add_one, hmap, Nat.add_zero]

/-- The entries of a name: the numbers down to 1, the attribute, the checksum of the short name, and
the pieces, which give the name again. -/
structure NameEntries (name : CString) (longs : List ByteMem) (short : ByteMem) : Prop where
  sequence : longs.map (fun e => e 0) =
    (List.range name.lfnNum).map fun j => sequenceByte name.lfnNum (name.lfnNum - j)
  attrib : ∀ e ∈ longs, e 11 = 0x0f
  checksum : ∀ e ∈ longs, e 13 = fatChecksum short
  decoded : ∃ tmp, decodeName longs = some tmp ∧
    (∀ i < name.strlen, tmp i = name.bytes i) ∧ tmp name.strlen = 0

theorem nameEntries_longsFrom {short : ByteMem} (h : name.strlen ≤ 52)
    (hc : checksum = fatChecksum short) :
    NameEntries name (longsFrom name checksum name.lfnNum name.lfnNum) short := by
  refine ⟨map_sequence_longsFrom, fun e he => ?_, fun e he => ?_, decodeName_longsFrom h⟩
  · obtain ⟨seq, -, -, rfl⟩ := mem_longsFrom.mp he
    exact longEntry_attrib
  · obtain ⟨seq, -, -, rfl⟩ := mem_longsFrom.mp he
    exact longEntry_checksum.trans hc

theorem fatChecksum_congr {p q : ByteMem} (h : ∀ i < 11, p i = q i) :
    fatChecksum p = fatChecksum q := by
  rw [fatChecksum, fatChecksum, h 0 (by decide)]
  refine List.foldl_ext _ _ _ fun sum i hi => ?_
  rw [h (i + 1) (by have := List.mem_range.mp hi; omega)]

/-- What `Create` does before its loop: a run of free slots is found and its last one gets the short
entry, whose checksum is taken. -/
theorem createStart_spec (hg : s.info.SectorGeometry) (hb : 32 ∣ s.info.bytesPerCluster)
    (hsz : ∀ ip, s.inode? dir = some ip → ip.sz < 2 ^ 32)
    (hok : createStart dir name mode s = .ok ((off, entry, checksum), s₁)) :
    checksum = fatChecksum entry ∧ ∃ pos L s₂, off = pos + 32 * name.lfnNum ∧ off + 32 < 2 ^ 32 ∧
      EntriesRead dir s 0 L s₂ ∧ FreeTail (name.lfnNum + 1) L ∧
      pos + 32 * (name.lfnNum + 1) = 32 * L.length := by
  obtain ⟨pos, found, hfind, hrun⟩ := bind_eq_ok.mp hok
  obtain ⟨cluster, claimed, halloc, hrun⟩ := bind_eq_ok.mp hrun
  obtain ⟨entry', filled, hfill, hrun⟩ := bind_eq_ok.mp hrun
  obtain ⟨count, written, hwrite, hrun⟩ := bind_eq_ok.mp hrun
  obtain ⟨q, read, hread, hrun⟩ := bind_eq_ok.mp hrun
  obtain ⟨ip, L, hip, hpos, hL, hfree, hlen, hle⟩ := findFreeEntry_spec hfind
  have hlt := hsz ip hip
  have hsized : Sized s.info dir (some ip.sz) filled := by
    have hstart : Sized s.info dir (some ip.sz) s := ⟨rfl, by rw [sizeOf, hip]; rfl⟩
    have hfound := hL.sized hstart
    have hclaimed := (Keeps.get.bind fun _ => allocFrom_keeps tableFree_sized _ 2) hfound halloc
    exact fillShortFile_keeps_of (fun s n h => ⟨h.1, by cases dir <;> exact h.2⟩) _ _ _ _
      hclaimed hfill
  obtain ⟨iq, hiq, hz⟩ := exists_of_sizeOf hsized.2
  have hoff : (pos + name.lfnNum * 32) % 2 ^ 32 = pos + 32 * name.lfnNum := by
    rw [Nat.mod_eq_of_lt (by omega), Nat.mul_comm]
  rw [hoff] at hwrite hread
  have hmod : (pos + 32 * name.lfnNum) % s.info.bytesPerCluster + 32 ≤ s.info.bytesPerCluster := by
    obtain ⟨k, hk⟩ := hb
    have hdvd : 32 ∣ (pos + 32 * name.lfnNum) % s.info.bytesPerCluster :=
      (Nat.dvd_mod_iff ⟨k, hk⟩).mpr (by omega)
    have := Nat.mod_lt (pos + 32 * name.lfnNum) hpos
    omega
  rw [← hsized.1] at hg hmod
  have hstored := writeBytes_stored hiq (by omega) (by omega) hmod hwrite
  have hback := hstored.readBack hg hiq (by omega) (by omega) hmod hread
  dsimp only at hrun
  by_cases hbyte : name.lfnNum ≥ 255
  · rw [if_pos hbyte] at hrun
    cases hrun
  · rw [if_neg hbyte, pure_apply, Except.ok.injEq, Prod.mk.injEq, Prod.mk.injEq, Prod.mk.injEq] at hrun
    obtain ⟨⟨rfl, rfl, rfl⟩, rfl⟩ := hrun
    refine ⟨fatChecksum_congr fun i hi => ?_, pos, L, found, hoff, ?_, hL, hfree, hlen⟩
    · rw [overlay, hback, List.getD_eq_getElem?_getD, List.getElem?_map,
        List.getElem?_range (by omega)]
      rfl
    · rw [hoff]
      omega

/-- The entries `t`, the last one first, are in a run of slots that were free or deleted: the long
entries, which give the name back, and behind them the short one. -/
def RoundTrip (dir : InodeRef) (name : CString) (s : Fat32FileSystem) (t : List (ℕ × ByteMem)) :
    Prop :=
  ∃ off L s₁ longs short, t.reverse = slots off (longs ++ [short]) ∧ NameEntries name longs short ∧
    EntriesRead dir s 0 L s₁ ∧ off + 32 * (name.lfnNum + 1) = 32 * L.length ∧
    ∀ e ∈ L.drop (L.length - (name.lfnNum + 1)), FreeEntry e

theorem roundTrip_of_createTrace (hg : s.info.SectorGeometry) (hb : 32 ∣ s.info.bytesPerCluster)
    (hsz : ∀ ip, s.inode? dir = some ip → ip.sz < 2 ^ 32) (hpos : 1 ≤ name.strlen)
    (hlen : name.strlen ≤ 52) (hok : createTrace dir name mode s = .ok (t, s')) :
    RoundTrip dir name s t := by
  obtain ⟨⟨last, short, checksum⟩, s₁, hstart, hrun⟩ := bind_eq_ok.mp hok
  obtain ⟨rest, s₂, hlong, hrun⟩ := bind_eq_ok.mp hrun
  cases hrun
  obtain ⟨hc, pos, L, found, hlast, hlt, hL, hfree, hL'⟩ := createStart_spec hg hb hsz hstart
  have hnum : 1 ≤ name.lfnNum := by rw [CString.lfnNum]; omega
  have hrev := longTrace_reverse pos (by omega) (by omega) hlong
  rw [← longsFrom_eq] at hrev
  refine ⟨pos, L, found, longsFrom name checksum name.lfnNum name.lfnNum, short, ?_,
    nameEntries_longsFrom hlen hc, hL, hL', hfree.free⟩
  rw [List.reverse_cons, hrev, slots_snoc, length_longsFrom, hlast]

end RoundTrip

end Fat32FileSystem

end StartOS
