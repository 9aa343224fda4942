import StartOS.Fs.FileBytes

/-! # One file under operation

An operation works on one inode. It maps logical clusters, possibly taking free
ones, moves the bytes of clusters through buffers and stores the directory entry
of the inode past the buffers. What such a sequence of steps keeps is said once
here, for the coherence of the buffers and for the table on the disk alike.
-/

namespace StartOS.Fat32FileSystem

open Linked Hoare BufferLayer

variable {s s' : Fat32FileSystem} {r : InodeRef} {ip : Inode} {l : List ℕ} {c i k n off total : ℕ}
  {D : ByteMem}

def CoherentOn (s : Fat32FileSystem) (K : Set ℕ) : Prop :=
  ∀ i c, s.buffers.Holds i c → c ∈ K → ∀ x < 4096,
    (s.buffers.bufCache i).data x = s.disk (s.info.clusterAddr c + x)

/-- The file of an inode has the chain `l`. The cursor is on the chain or, before it has been
set, past every logical cluster that can be asked for. -/
structure OnChain (s : Fat32FileSystem) (r : InodeRef) (ip : Inode) (l : List ℕ) : Prop where
  node : s.inode? r = some ip
  chains : Chains s {s.startOf r ip} fun _ => l
  cursor : l[ip.iLogi]? = some ip.iClus ∨ 2 ^ 21 < ip.iLogi
  sz_lt : ip.sz < 2 ^ 32

/-- What holds between two operations: the volume has the geometry the buffer layer supports and
ends below byte `2 ^ 31`, no cluster has two buffers and those of `K` are coherent. -/
structure Calm (s : Fat32FileSystem) (K : Set ℕ) : Prop where
  geometry : s.info.Geometry
  range : ∀ c, 2 ≤ c → s.info.InCache c → s.info.InRange c
  distinct : s.buffers.Distinct
  matches' : s.buffers.Matches s.info
  coherent : s.CoherentOn K

theorem Calm.congr {K : Set ℕ} (h : s.Calm K) (hi : s'.info = s.info) (hb : s'.buffers = s.buffers)
    (hd : s'.disk = s.disk) : s'.Calm K := by
  refine ⟨hi ▸ h.geometry, hi ▸ h.range, hb ▸ h.distinct, ?_, ?_⟩
  · rw [hb, hi]
    exact h.matches'
  · simpa only [CoherentOn, hb, hd, hi] using h.coherent

/-- What an operation on the inode `file` may do. It asks for logical clusters below `reach`
and takes free clusters only if it may `grow`. The buffers of `watched` clusters are to stay
coherent, `spared` clusters are not to be touched. -/
structure Session where
  start : Fat32FileSystem
  file : InodeRef
  pos : ℕ
  reach : ℕ
  grow : Prop
  watched : Set ℕ
  spared : Set ℕ
  two_le : ∀ c ∈ watched, 2 ≤ c

namespace Session

variable {p : Session}

def Fresh (p : Session) (s : Fat32FileSystem) : Prop :=
  ∀ i c, s.buffers.Holds i c → c ∈ p.watched → ¬ s.Free c

/-- The part of the invariant about the chain of the file. -/
structure File (p : Session) (s : Fat32FileSystem) (ip : Inode) (l : List ℕ) : Prop where
  onChain : s.OnChain p.file ip l
  pos : ip.iPos = p.pos
  mode : (s.fatCache = p.start.fatCache ∧ p.reach ≤ l.length) ∨ (p.grow ∧ p.Fresh s)
  spared : ∀ w ∈ p.spared, w ∉ l

structure Inv (p : Session) (s : Fat32FileSystem) : Prop extends s.Calm p.watched where
  info : s.info = p.start.info
  low : ∀ y < s.info.firstDataSector * 512, s.disk y = p.start.disk y
  spared : ∀ w ∈ p.spared, (∀ i, ¬ s.buffers.Holds i w) ∧ ¬ s.Free w
  file : ∃ ip l, p.File s ip l

structure Usable (p : Session) (s : Fat32FileSystem) (c : ℕ) : Prop where
  inRange : s.info.InRange c
  spared : c ∉ p.spared
  not_free : ¬ s.Free c

end Session

/-! ## Mapping a logical cluster -/

theorem Chains.single {a : ℕ} {S : Set ℕ} {ch : ℕ → List ℕ} (h : Chains s S ch) (ha : a ∈ S)
    (hl : ch a = l) : Chains s {a} fun _ => l := by
  subst hl
  refine ⟨?_, ?_, ?_, ?_, ?_⟩
  · rintro b rfl; exact h.chain b ha
  · rintro b rfl; exact h.start b ha
  · rintro b rfl; exact h.two_le b ha
  · rintro b rfl; exact h.inCache b ha
  · rintro b rfl d rfl hne; exact absurd rfl hne

theorem bmapLoop_inside {a cur : ℕ} (hg : s.info.FatGeometry) (h : Chains s {a} fun _ => l)
    (hi : l[i]? = some cur) (hn : i + n < l.length) :
    bmapLoop n cur s = .ok (l[i + n], s) := by
  induction n generalizing i cur with
  | zero =>
    obtain ⟨_, rfl⟩ := List.getElem?_eq_some_iff.mp hi
    rfl
  | succ n ih =>
    obtain ⟨hlt, hcur⟩ := List.getElem?_eq_some_iff.mp hi
    have hc := h.chain a rfl
    have hmem : cur ∈ l := List.mem_of_getElem? hi
    have hnext : s.entry cur = l[i + 1] := by rw [← hcur, hc.next_getElem (by omega)]
    have hne : s.entry cur ≠ endOfCluster := by
      rw [hnext]; exact hc.ne_of_mem (List.getElem_mem _)
    rw [bmapLoop, if_neg (hc.ne_of_mem hmem), bind_of_ok (getFatEntry_eq hg (h.inCache a rfl _ hmem)),
      if_neg hne, ih (i := i + 1) (by rw [hnext]; exact List.getElem?_eq_getElem _) (by omega)]
    simp only [show i + 1 + n = i + (n + 1) by omega]

namespace OnChain

theorem length_le (h : s.OnChain r ip l) : l.length ≤ 131072 := (h.chains.length_le rfl).2

theorem length_pos (h : s.OnChain r ip l) : 0 < l.length :=
  List.length_pos_of_mem (h.chains.start_mem rfl)

theorem not_free (h : s.OnChain r ip l) (hc : c ∈ l) : ¬ s.Free c := fun hf =>
  h.chains.entry_ne_zero rfl hc hf.entry_eq

theorem cursor_cases (h : s.OnChain r ip l) (hk : k ≤ 2 ^ 21) :
    k < ip.iLogi ∨ l[ip.iLogi]? = some ip.iClus := by
  rcases h.cursor with hc | hc
  · exact Or.inr hc
  · exact Or.inl (by omega)

theorem bmap_inside (hg : s.info.FatGeometry) (h : s.OnChain r ip l) (hk : k < l.length) :
    bmap r k s = .ok (l[k], s.setInode r { ip with iLogi := k, iClus := l[k] }) := by
  have hlen := h.length_le
  have hch := h.chains.chain _ rfl
  obtain ⟨i, cur, hsel, hi, hle⟩ : ∃ i cur,
      (if k ≥ ip.iLogi then (ip.iClus, signExtend ip.iLogi) else (s.startOf r ip, 0)) = (cur, i) ∧
      l[i]? = some cur ∧ i ≤ k := by
    by_cases hge : k ≥ ip.iLogi
    · have hc := (h.cursor_cases (k := k) (by omega)).resolve_left (by omega)
      refine ⟨ip.iLogi, ip.iClus, ?_, hc, hge⟩
      rw [if_pos hge, signExtend, if_pos (by omega)]
    · refine ⟨0, _, if_neg hge, ?_, Nat.zero_le _⟩
      rw [List.getElem?_eq_getElem h.length_pos, hch.getElem_zero]
  have hstart : (if r = .root then s.info.rootDirectoryClusterStart else ip.iStart) =
      s.startOf r ip := rfl
  have hloop := bmapLoop_inside (n := k - i) hg h.chains hi (by omega)
  simp only [show i + (k - i) = k by omega] at hloop
  simp only [bmap, get_bind, bind_of_ok (inode_eq h.node), hstart, hsel, bind_of_ok hloop,
    if_neg (hch.ne_of_mem (List.getElem_mem hk)), bind_of_ok (updateInodeWith_eq h.node), pure_apply]

theorem setInode (h : s.OnChain r ip l) {ip' : Inode} (hs : ip'.iStart = ip.iStart)
    (hc : l[ip'.iLogi]? = some ip'.iClus ∨ 2 ^ 21 < ip'.iLogi) (hsz : ip'.sz < 2 ^ 32) :
    (s.setInode r ip').OnChain r ip' l := by
  have hst : (s.setInode r ip').startOf r ip' = s.startOf r ip := by
    simp only [startOf, info_setInode, hs]
  refine ⟨by rw [inode?_setInode, if_pos rfl], ?_, hc, hsz⟩
  rw [hst]
  exact h.chains.congr (info_setInode ..) (by simp)

theorem extended (h : s.OnChain r ip l) {ext : List ℕ}
    (hx : Extended s {s.startOf r ip} (fun _ => l) (s.startOf r ip) ext s') :
    s'.OnChain r ip (l ++ ext) := by
  refine ⟨(hx.inode?_eq _).trans h.node, ?_, ?_, h.sz_lt⟩
  · rw [startOf_of_info hx.info_eq]
    exact hx.chains.single rfl (Function.update_self ..)
  · rcases h.cursor with hc | hc
    · obtain ⟨hlt, -⟩ := List.getElem?_eq_some_iff.mp hc
      exact Or.inl (by rw [List.getElem?_append_left hlt]; exact hc)
    · exact Or.inr hc

theorem congr (h : s.OnChain r ip l) (hi : s'.info = s.info) (hn : s'.inode? r = s.inode? r)
    (he : ∀ c ∈ l, s'.entry c = s.entry c) : s'.OnChain r ip l := by
  have hst : s'.startOf r ip = s.startOf r ip := startOf_of_info hi
  refine ⟨hn.trans h.node, ?_, h.cursor, h.sz_lt⟩
  rw [hst]
  exact h.chains.congr hi fun _ _ c hc => he c hc

end OnChain

@[simp] theorem fatCache_setInode (s : Fat32FileSystem) (r : InodeRef) (ip : Inode) :
    (s.setInode r ip).fatCache = s.fatCache := by cases r <;> rfl

theorem free_congr (hi : s'.info = s.info) (he : s'.entry c = s.entry c) : s'.Free c ↔ s.Free c :=
  ⟨fun h => ⟨h.two_le, hi ▸ h.inCache, he ▸ h.entry_eq⟩,
    fun h => ⟨h.two_le, hi ▸ h.inCache, he ▸ h.entry_eq⟩⟩

@[simp] theorem free_setInode (s : Fat32FileSystem) (r : InodeRef) (ip : Inode) :
    (s.setInode r ip).Free c ↔ s.Free c :=
  free_congr (info_setInode ..) (by rw [entry_setInode])

theorem prefixLen_le (ok : ℕ → Bool) (n : ℕ) : prefixLen ok n ≤ n := by
  induction n generalizing ok with
  | zero => rfl
  | succ n ih =>
    rw [prefixLen]
    split
    · exact Nat.succ_le_succ (ih _)
    · omega

theorem prefixLen_min (ok : ℕ → Bool) (hk : k ≤ n) :
    prefixLen ok k = min k (prefixLen ok n) := by
  induction n generalizing ok k with
  | zero =>
    obtain rfl : k = 0 := by omega
    rfl
  | succ n ih =>
    cases k with
    | zero => simp [prefixLen]
    | succ k =>
      rw [prefixLen, prefixLen]
      split
      · rw [ih _ (by omega)]
        omega
      · simp

theorem prefixLen_shift (ok : ℕ → Bool) (ht : total ≤ prefixLen ok (total + n)) :
    prefixLen (fun j => ok (total + j)) n = prefixLen ok (total + n) - total := by
  induction total generalizing ok with
  | zero => simp
  | succ m ih =>
    rw [show m + 1 + n = m + n + 1 by omega, prefixLen] at ht ⊢
    by_cases h0 : ok 0 = true
    · rw [if_pos h0] at ht ⊢
      have := ih (fun i => ok (i + 1)) (by omega)
      simp only [show ∀ j, m + j + 1 = m + 1 + j from fun j => by omega] at this
      rw [this]
      omega
    · rw [if_neg h0] at ht
      omega

/-- The readable part of a source is all of it, nothing, or ends where a cluster of the file
does. -/
def WholeClusters (src : ℕ → Option UInt8) (off n : ℕ) : Prop :=
  let q := prefixLen (fun j => (src j).isSome) n
  q = n ∨ q = 0 ∨ (off + q) % 4096 = 0

namespace Session

variable {p : Session}

/-- The directory entry of the file lies in a sector of one data cluster, and a watched one of
these is spared. -/
def EntrySpared (p : Session) (info : Fat32Info) : Prop :=
  p.pos % 512 + 32 ≤ 512 ∧ ∃ w, info.InRange w ∧ info.clusterAddr w ≤ p.pos ∧
    p.pos + 32 ≤ info.clusterAddr w + 4096 ∧ (w ∈ p.watched → w ∈ p.spared)

theorem File.usable (h : p.Inv s) (hf : p.File s ip l) (hc : c ∈ l) : p.Usable s c where
  inRange := h.range c (hf.onChain.chains.two_le _ rfl c hc) (hf.onChain.chains.inCache _ rfl c hc)
  spared hm := hf.spared c hm hc
  not_free := hf.onChain.not_free hc

namespace Inv

theorem sz_lt (h : p.Inv s) (hip : s.inode? p.file = some ip) : ip.sz < 2 ^ 32 := by
  obtain ⟨ip', l, hf⟩ := h.file
  have := hf.onChain.node
  rw [hip] at this
  cases this
  exact hf.onChain.sz_lt

theorem exists_inode (h : p.Inv s) : ∃ ip, s.inode? p.file = some ip := by
  obtain ⟨ip, l, hf⟩ := h.file
  exact ⟨ip, hf.onChain.node⟩

theorem congr (h : p.Inv s) (hi : s'.info = s.info) (hb : s'.buffers = s.buffers)
    (hd : s'.disk = s.disk) (hc : s'.fatCache = s.fatCache)
    (hn : s'.inode? p.file = s.inode? p.file) : p.Inv s' := by
  obtain ⟨ip, l, hf⟩ := h.file
  have he : s'.entry = s.entry := by funext c; rw [entry, entry, hc]
  have hfree : ∀ c, s'.Free c ↔ s.Free c := fun c => free_congr hi (congrFun he c)
  refine ⟨h.toCalm.congr hi hb hd, hi.trans h.info, ?_, ?_, ip, l,
    hf.onChain.congr hi hn fun c _ => congrFun he c, hf.pos, ?_, hf.spared⟩
  · rw [hi, hd]
    exact h.low
  · simpa only [hb, hfree] using h.spared
  · simpa only [Fresh, hb, hc, hfree] using hf.mode

theorem setInode (h : p.Inv s) (hf : p.File s ip l) {ip' : Inode} (hs : ip'.iStart = ip.iStart)
    (hp : ip'.iPos = ip.iPos) (hc : l[ip'.iLogi]? = some ip'.iClus ∨ 2 ^ 21 < ip'.iLogi)
    (hsz : ip'.sz < 2 ^ 32) : p.Inv (s.setInode p.file ip') := by
  refine ⟨h.toCalm.congr (by simp) (by simp) (by simp), by simpa using h.info, by simpa using h.low,
    by simpa using h.spared, ip', l, hf.onChain.setInode hs hc hsz, hp.trans hf.pos, ?_, hf.spared⟩
  simpa only [Fresh, buffers_setInode, fatCache_setInode, free_setInode] using hf.mode

theorem extended (h : p.Inv s) (hf : p.File s ip l) (hg : p.grow) (hfr : p.Fresh s) {ext : List ℕ}
    (hx : Extended s {s.startOf p.file ip} (fun _ => l) (s.startOf p.file ip) ext s') :
    p.Inv s' ∧ p.File s' ip (l ++ ext) := by
  have hinfo := hx.info_eq
  have hbuf : s'.buffers = s.buffers := by rw [hx.state]
  have hchain : Chains s' {s.startOf p.file ip} fun _ => l ++ ext :=
    hx.chains.single rfl (Function.update_self ..)
  have hrange : ∀ c ∈ ext, s.info.InRange c := fun c hc =>
    h.range c (hx.free c hc).two_le (hx.free c hc).inCache
  have hfree : ∀ c, s'.Free c → s.Free c := by
    intro c hc
    have hout : c ∉ l ++ ext := fun hm => hchain.entry_ne_zero rfl hm hc.entry_eq
    rw [List.mem_append, not_or] at hout
    exact (free_congr hinfo (hx.entry c hout.1 hout.2)).mp hc
  have hdisk : ∀ y, (∀ c ∈ ext, ¬ s.info.InCluster c y) → s'.disk y = s.disk y := by
    intro y hy
    rw [hx.state]
    exact foldl_clearCluster_of_not_mem h.geometry hrange hy _
  have hon : s'.OnChain p.file ip (l ++ ext) := hf.onChain.extended hx
  have hfile : p.File s' ip (l ++ ext) := by
    refine ⟨hon, hf.pos, Or.inr ⟨hg, fun i c hc hw hfc => ?_⟩, fun w hw hm => ?_⟩
    · rw [hbuf] at hc
      exact hfr i c hc hw (hfree c hfc)
    · rcases List.mem_append.mp hm with hm | hm
      · exact hf.spared w hw hm
      · exact (h.spared w hw).2 (hx.free w hm)
  refine ⟨⟨⟨hinfo ▸ h.geometry, hinfo ▸ h.range, hbuf ▸ h.distinct, ?_, ?_⟩, hinfo.trans h.info, ?_,
    fun w hw => ?_, ip, _, hfile⟩, hfile⟩
  · rw [hbuf, hinfo]
    exact h.matches'
  · intro i c hc hw x hx'
    rw [hbuf] at hc
    rw [hbuf, hinfo, hdisk _ fun d hd hin => hfr i c hc hw ?_]
    · exact h.coherent i c hc hw x hx'
    · have : d = c := hin.eq (d := c) ⟨by omega, by omega⟩ (hrange d hd).two_le (p.two_le c hw)
      exact this ▸ hx.free d hd
  · intro y hy
    rw [hinfo] at hy
    rw [hdisk y fun d _ hin => ?_, h.low y hy]
    have := hin.1
    simp only [Fat32Info.clusterAddr] at this
    omega
  · rw [hbuf]
    exact ⟨(h.spared w hw).1, fun hfw => (h.spared w hw).2 (hfree w hfw)⟩

theorem bmap (h : p.Inv s) (hk : k < p.reach) (hk' : k ≤ 2 ^ 21)
    (hok : bmap p.file k s = .ok (c, s')) : p.Inv s' ∧ p.Usable s' c := by
  obtain ⟨ip, l, hf⟩ := h.file
  rcases hf.mode with ⟨hfat, hlen⟩ | ⟨hg, hfr⟩
  · have hkl : k < l.length := by omega
    rw [hf.onChain.bmap_inside h.geometry.toFatGeometry hkl, Except.ok.injEq, Prod.mk.injEq] at hok
    obtain ⟨rfl, rfl⟩ := hok
    refine ⟨h.setInode hf rfl rfl (Or.inl (List.getElem?_eq_getElem hkl)) hf.onChain.sz_lt, ?_⟩
    have := hf.usable h (List.getElem_mem hkl)
    exact ⟨by simpa using this.inRange, this.spared, by simpa using this.not_free⟩
  · rcases bmap_cases k h.geometry.toFatGeometry hf.onChain.chains hf.onChain.node rfl
      (hf.onChain.cursor_cases hk') with ⟨ext, s₁, d, hx, -, hd, hok'⟩ | ⟨⟨e, he⟩, -⟩
    · rw [hok', Except.ok.injEq, Prod.mk.injEq] at hok
      obtain ⟨rfl, rfl⟩ := hok
      obtain ⟨h₁, hf₁⟩ := h.extended hf hg hfr hx
      refine ⟨h₁.setInode hf₁ rfl rfl (Or.inl hd) hf.onChain.sz_lt, ?_⟩
      have := hf₁.usable h₁ (List.mem_of_getElem? hd)
      exact ⟨by simpa using this.inRange, this.spared, by simpa using this.not_free⟩
    · rw [he] at hok
      cases hok

/-- A cluster of the file has gone through a buffer that now holds `D`, and possibly to the
disk. -/
theorem buffered (h : p.Inv s) (hc : p.Usable s c) {b : BufferLayer} {disk : ByteMem}
    (hb : BufStep s.buffers c D b)
    (hself : c ∈ p.watched → ∀ x < 4096, D x = disk (s.info.clusterAddr c + x))
    (hother : ∀ y, ¬ s.info.InCluster c y → disk y = s.disk y) :
    p.Inv { s with
      disk := disk
      buffers := b } := by
  obtain ⟨ip, l, hf⟩ := h.file
  set t : Fat32FileSystem := { s with
    disk := disk
    buffers := b } with ht
  have hfree : ∀ d, t.Free d ↔ s.Free d := fun d => free_congr rfl rfl
  refine ⟨⟨h.geometry, h.range, hb.distinct, ?_, ?_⟩, h.info, ?_, fun w hw => ⟨fun j hj => ?_, ?_⟩,
    ip, l, hf.onChain.congr rfl (by cases p.file <;> rfl) fun _ _ => rfl, hf.pos, ?_, hf.spared⟩
  · exact ⟨hb.firstDataSector.trans h.matches'.firstDataSector,
      hb.sectorsPerCluster.trans h.matches'.sectorsPerCluster⟩
  · intro j d hj hw x hx
    rcases hb.holds j d hj with ⟨rfl, hD⟩ | ⟨hne, hj', hD⟩
    · exact (congrFun hD x).trans (hself hw x hx)
    · have hy : ¬ s.info.InCluster c (s.info.clusterAddr d + x) := fun hin =>
        hne (Fat32Info.InCluster.eq ⟨by omega, by omega⟩ hin (p.two_le d hw) hc.inRange.two_le)
      exact (congrFun hD x).trans ((h.coherent j d hj' hw x hx).trans (hother _ hy).symm)
  · intro y hy
    have hy' : ¬ s.info.InCluster c y := fun hin => by
      have h₁ := hin.1
      have h₂ : y < s.info.firstDataSector * 512 := hy
      simp only [Fat32Info.clusterAddr] at h₁
      omega
    exact (hother y hy').trans (h.low y hy)
  · rcases hb.holds j w hj with ⟨rfl, -⟩ | ⟨-, hj', -⟩
    · exact hc.spared hw
    · exact (h.spared w hw).1 j hj'
  · exact fun hfw => (h.spared w hw).2 ((hfree w).mp hfw)
  · refine hf.mode.imp id fun hm => ⟨hm.1, fun j d hj hw hfd => ?_⟩
    rcases hb.holds j d hj with ⟨rfl, -⟩ | ⟨-, hj', -⟩
    · exact hc.not_free ((hfree _).mp hfd)
    · exact hm.2 j d hj' hw ((hfree _).mp hfd)

theorem bufRead (h : p.Inv s) (hc : p.Usable s c) (hok : bufRead c s = .ok (i, s')) :
    ∃ b, s' = { s with buffers := b } ∧ ReadDone s.buffers s.disk c i b ∧
      (c ∈ p.watched → ∀ x < 4096, (b.bufCache i).data x = s.disk (s.info.clusterAddr c + x)) := by
  have hlt := hc.inRange.lt
  have h2 := hc.inRange.two_le
  have h512 : s.info.clusterAddr c % 512 = 0 := by simp only [Fat32Info.clusterAddr]; omega
  cases hr : s.buffers.read s.disk s.dev c with
  | error e =>
    simp only [Fat32FileSystem.bufRead, get_bind, hr] at hok
    cases hok
  | ok q =>
    rw [bufRead_eq (i := q.1) (l := q.2) hr, Except.ok.injEq, Prod.mk.injEq] at hok
    obtain ⟨rfl, rfl⟩ := hok
    have hd := h.distinct.read_done (i := q.1) (by omega)
      (by simp only [Fat32Info.clusterAddr] at hlt; omega) hr
    refine ⟨q.2, rfl, hd, fun hw x hx => ?_⟩
    rcases hd.data with ⟨hh, he⟩ | ⟨-, old, he⟩
    · rw [he]
      exact h.coherent _ c hh hw x hx
    · rw [he, offsetOf_eq h.matches' hc.inRange, rwDevRead_eq (n := bsize) hlt h512 rfl]
      exact if_pos hx

/-- The loop of `ReadInode`, whether the copy to the caller fails or not. -/
theorem readLoop {dst : ℕ → Bool} {fuel : ℕ} {out : List UInt8} {q : ℤ × List UInt8}
    (h : p.Inv s) (hr : off + (n - total) ≤ 4096 * p.reach) (hr' : off + (n - total) ≤ 2 ^ 33)
    (hok : readLoop p.file dst n fuel total off out s = .ok (q, s')) : p.Inv s' := by
  induction fuel generalizing s total off out with
  | zero => cases hok
  | succ fuel ih =>
    rw [Fat32FileSystem.readLoop] at hok
    by_cases hlt : total < n
    · rw [if_pos hlt, get_bind] at hok
      simp only [h.geometry.bytesPerCluster] at hok
      rw [Nat.mod_eq_of_lt (a := off / 4096) (by omega)] at hok
      obtain ⟨c, s₁, hb, hok⟩ := bind_eq_ok.mp hok
      obtain ⟨h₁, hc⟩ := h.bmap (by omega) (by omega) hb
      obtain ⟨i, s₂, hread, hok⟩ := bind_eq_ok.mp hok
      obtain ⟨b, rfl, hd, hdata⟩ := h₁.bufRead hc hread
      rw [get_bind] at hok
      split at hok
      · rw [pure_apply, Except.ok.injEq, Prod.mk.injEq] at hok
        obtain ⟨-, rfl⟩ := hok
        exact h₁.buffered hc (bufStep_of_read h₁.distinct hd hd.blockno rfl (fun _ _ => rfl) rfl rfl)
          hdata fun _ _ => rfl
      · rw [bufFree, modify_bind] at hok
        refine ih ?_ (by omega) (by omega) hok
        refine h₁.buffered hc (bufStep_of_read h₁.distinct hd ?_ ?_ ?_ rfl rfl) hdata fun _ _ => rfl
        · rw [freeBuffer, setBuf_self]
          exact hd.blockno
        · rw [freeBuffer, setBuf_self]
        · exact fun j hj => by rw [freeBuffer, setBuf_of_ne _ _ hj]
    · rw [if_neg hlt, pure_apply, Except.ok.injEq, Prod.mk.injEq] at hok
      exact hok.2 ▸ h

theorem readInode {dst : ℕ → Bool} {q : ℤ × List UInt8} (h : p.Inv s)
    (hip : s.inode? p.file = some ip)
    (hr : off ≤ ip.sz → off + min n (ip.sz - off) ≤ 4096 * p.reach)
    (hok : readInode p.file dst off n s = .ok (q, s')) : p.Inv s' := by
  have hsz := h.sz_lt hip
  rw [Fat32FileSystem.readInode, bind_of_ok (inode_eq hip)] at hok
  split at hok
  · rw [pure_apply, Except.ok.injEq, Prod.mk.injEq] at hok
    exact hok.2 ▸ h
  · rename_i hle
    have hmin : (if off + n > ip.sz then ip.sz - off else n) = min n (ip.sz - off) := by
      split <;> omega
    have := hr (by omega)
    simp only [hmin] at hok
    exact h.readLoop (by omega) (by omega) hok

/-- The loop of `WriteInode`. `start` is where the write began. A copy from the caller that
fails inside a cluster leaves the buffer different from the disk. -/
theorem writeLoop {src : ℕ → Option UInt8} {fuel start : ℕ} {q : ℤ × ℕ} (h : p.Inv s)
    (hr : off + (n - total) ≤ 4096 * p.reach) (hr' : off + (n - total) ≤ 2 ^ 33)
    (hoff : off = start + total) (ht : total ≤ prefixLen (fun j => (src j).isSome) n)
    (hsrc : p.watched = ∅ ∨ WholeClusters src start n)
    (hok : writeLoop p.file src n fuel total off s = .ok (q, s')) : p.Inv s' := by
  induction fuel generalizing s total off with
  | zero => cases hok
  | succ fuel ih =>
    rw [Fat32FileSystem.writeLoop] at hok
    by_cases hlt : total < n
    · rw [if_pos hlt, get_bind] at hok
      simp only [h.geometry.bytesPerCluster] at hok
      rw [Nat.mod_eq_of_lt (a := off / 4096) (by omega)] at hok
      obtain ⟨c, s₁, hb, hok⟩ := bind_eq_ok.mp hok
      obtain ⟨h₁, hc⟩ := h.bmap (by omega) (by omega) hb
      obtain ⟨i, s₂, hread, hok⟩ := bind_eq_ok.mp hok
      obtain ⟨b, rfl, hd, hdata⟩ := h₁.bufRead hc hread
      rw [get_bind, modify_bind] at hok
      set nw := min (n - total) (4096 - off % 4096) with hnw
      set m := prefixLen (fun j => (src (total + j)).isSome) nw with hm
      set D := (b.bufCache i).data.blit (off % 4096) m fun j => (src (total + j)).getD 0 with hD
      have hmle := prefixLen_le (fun j => (src j).isSome) n
      have hmeq : m = min nw (prefixLen (fun j => (src j).isSome) n - total) := by
        have h₁ := prefixLen_min (fun j => (src (total + j)).isSome) (k := nw) (n := n - total)
          (by omega)
        have h₂ := prefixLen_shift (fun j => (src j).isSome) (n := n - total)
          (by rw [show total + (n - total) = n by omega]; exact ht)
        rw [show total + (n - total) = n by omega] at h₂
        rw [hm, h₁, h₂]
      split at hok
      · rename_i hshort
        rw [pure_apply, Except.ok.injEq, Prod.mk.injEq] at hok
        obtain ⟨-, rfl⟩ := hok
        refine h₁.buffered hc (D := D) (bufStep_of_read h₁.distinct hd ?_ ?_ ?_ rfl rfl) ?_
          fun _ _ => rfl
        · rw [setBuf_self]
          exact hd.blockno
        · rw [setBuf_self]
        · exact fun j hj => setBuf_of_ne _ _ hj
        · intro hw x hx
          have hm0 : m = 0 := by
            rcases hsrc with he | he | he | he
            · rw [he] at hw
              exact absurd hw (Set.notMem_empty c)
            · omega
            · omega
            · omega
          rw [hD, hm0, ByteMem.blit_zero]
          exact hdata hw x hx
      · rw [bufWrite, modify_bind, bufFree, modify_bind] at hok
        dsimp only at hok
        have hwr : (b.setBuf i { b.bufCache i with data := D }).write s₁.disk i =
            s₁.disk.blit (s₁.info.clusterAddr c) 4096 D := by
          have hlt := hc.inRange.lt
          have h2 := hc.inRange.two_le
          have h512 : s₁.info.clusterAddr c % 512 = 0 := by
            simp only [Fat32Info.clusterAddr]; omega
          have hmt : (b.setBuf i { b.bufCache i with data := D }).Matches s₁.info :=
            ⟨hd.firstDataSector.trans h₁.matches'.firstDataSector,
              hd.sectorsPerCluster.trans h₁.matches'.sectorsPerCluster⟩
          have hblk : ((b.bufCache i).blockno % 2 ^ 32).toNat = c := by
            rw [hd.blockno]
            simp only [Fat32Info.clusterAddr] at hlt
            omega
          simp only [write, setBuf_self, hblk]
          rw [offsetOf_eq hmt hc.inRange]
          exact rwDevWrite_eq (n := bsize) hlt h512 rfl
        have hself : ∀ x < 4096, D x = s₁.disk.blit (s₁.info.clusterAddr c) 4096 D
            (s₁.info.clusterAddr c + x) := fun x hx => by
          rw [ByteMem.blit_of_mem (by omega) (by omega), Nat.add_sub_cancel_left]
        have hnext := h₁.buffered hc (bufStep_release h₁.distinct hd D) (fun _ => hself)
          (fun y hy => ByteMem.blit_of_not_mem (by
            simp only [Fat32Info.InCluster] at hy
            omega))
        rw [← hwr] at hnext
        have hmnw : m = nw := by omega
        have hsum : off + nw + (n - (total + nw)) = off + (n - total) := by omega
        have hpre : total + nw ≤ prefixLen (fun j => (src j).isSome) n := by omega
        have hoff' : off + nw = start + (total + nw) := by rw [hoff, add_assoc]
        exact ih hnext (hsum ▸ hr) (hsum ▸ hr') hoff' hpre hok
    · rw [if_neg hlt, pure_apply, Except.ok.injEq, Prod.mk.injEq] at hok
      exact hok.2 ▸ h

theorem updateInode (h : p.Inv s) (he : p.EntrySpared s.info)
    (hok : updateInode p.file s = .ok ((), s')) : p.Inv s' := by
  obtain ⟨ip, l, hf⟩ := h.file
  obtain ⟨h512, w, hwr, hlo, hhi, hsp⟩ := he
  have hpos := hf.pos
  have hlt : ip.iPos / 512 * 512 + 512 < 2 ^ 31 := by
    have hwlt := hwr.lt
    have h512' : s.info.clusterAddr w % 512 = 0 := by simp only [Fat32Info.clusterAddr]; omega
    omega
  rw [updateInode_eq h.geometry.toFatGeometry hf.onChain.node (by omega) hlt,
    Except.ok.injEq, Prod.mk.injEq] at hok
  obtain ⟨-, rfl⟩ := hok
  have hout : ∀ y, ¬ s.info.InCluster w y → s.disk.blit ip.iPos 32
      (inodeEntry ip (s.stamps s.stampNo)) y = s.disk y := fun y hy =>
    ByteMem.blit_of_not_mem (by simp only [Fat32Info.InCluster] at hy; omega)
  refine ⟨⟨h.geometry, h.range, h.distinct, h.matches', fun i c hc hw x hx => ?_⟩, h.info,
    fun y hy => ?_, fun v hv => ?_, ip, l, hf.onChain.congr rfl (by cases p.file <;> rfl)
    fun _ _ => rfl, hf.pos, ?_, hf.spared⟩
  · have hne : c ≠ w := fun he => (h.spared w (hsp (he ▸ hw))).1 i (he ▸ hc)
    refine (h.coherent i c hc hw x hx).trans (hout _ fun hin => hne ?_).symm
    exact Fat32Info.InCluster.eq ⟨by omega, by omega⟩ hin (p.two_le c hw) hwr.two_le
  · refine (hout y fun hin => ?_).trans (h.low y hy)
    have h₁ := hin.1
    have h₂ : y < s.info.firstDataSector * 512 := hy
    simp only [Fat32Info.clusterAddr] at h₁
    omega
  · exact ⟨(h.spared v hv).1, fun hfv => (h.spared v hv).2 ⟨hfv.two_le, hfv.inCache, hfv.entry_eq⟩⟩
  · exact hf.mode.imp id fun hm =>
      ⟨hm.1, fun i c hc hw hfc => hm.2 i c hc hw ⟨hfc.two_le, hfc.inCache, hfc.entry_eq⟩⟩

theorem writeInode {src : ℕ → Option UInt8} {q : ℤ} (h : p.Inv s)
    (hip : s.inode? p.file = some ip) (hr : off ≤ ip.sz → off + n ≤ 4096 * p.reach)
    (hn : n ≤ 2 ^ 32) (hsrc : p.watched = ∅ ∨ WholeClusters src off n)
    (he : p.EntrySpared s.info) (hok : writeInode p.file src off n s = .ok (q, s')) : p.Inv s' := by
  have hsz := h.sz_lt hip
  rw [Fat32FileSystem.writeInode, bind_of_ok (inode_eq hip)] at hok
  split at hok
  · rw [pure_apply, Except.ok.injEq, Prod.mk.injEq] at hok
    exact hok.2 ▸ h
  · obtain ⟨⟨t, off'⟩, s₁, hloop, hok⟩ := bind_eq_ok.mp hok
    have := hr (by omega)
    have h₁ := h.writeLoop (by omega) (by omega) (by omega) (by omega) hsrc hloop
    have he₁ : p.EntrySpared s₁.info := by rw [h₁.info, ← h.info]; exact he
    obtain ⟨ip₁, l₁, hf₁⟩ := h₁.file
    dsimp only at hok
    rw [bind_of_ok (inode_eq hf₁.onChain.node)] at hok
    have hlast : ∀ s₂, p.Inv s₂ → p.EntrySpared s₂.info →
        (do Fat32FileSystem.updateInode p.file; return t : FsM ℤ) s₂ = .ok (q, s') → p.Inv s' := by
      intro s₂ h₂ he₂ hok₂
      obtain ⟨_, s₃, hup, hok₃⟩ := bind_eq_ok.mp hok₂
      rw [pure_apply, Except.ok.injEq, Prod.mk.injEq] at hok₃
      exact hok₃.2 ▸ h₂.updateInode he₂ hup
    split at hok
    · rw [bind_of_ok (updateInodeWith_eq hf₁.onChain.node)] at hok
      have hmod : off' % 2 ^ 32 < 2 ^ 32 := Nat.mod_lt _ (Nat.two_pow_pos 32)
      have hset : p.Inv (s₁.setInode p.file { ip₁ with sz := off' % 2 ^ 32 }) :=
        h₁.setInode hf₁ rfl rfl hf₁.onChain.cursor hmod
      refine hlast _ hset ?_ hok
      rw [info_setInode]
      exact he₁
    · exact hlast _ h₁ he₁ hok

end Inv

end Session

end StartOS.Fat32FileSystem
