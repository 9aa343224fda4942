import StartOS.Fs.Coherence

/-! # The table on the disk

The table is read from the disk when the volume is mounted and lives in
`fat_cache_` from then on; `SetFatEntey` does not write it back. It survives a
restart as long as no call changes it.
-/

namespace StartOS

/-- The boot sector and the cached part of the table lie before the data area. -/
structure Fat32Info.TableFirst (info : Fat32Info) : Prop where
  boot : 1 ≤ info.firstDataSector
  table : ∀ c, info.InCache c → info.reserveSectors * 512 + 4 * c + 4 ≤ info.firstDataSector * 512

namespace Fat32FileSystem

open Linked Hoare BufferLayer Relation

variable {s s' : Fat32FileSystem} {r : InodeRef} {ip : Inode} {l : List ℕ} {c : ℕ} {disk : ByteMem}
  {b : Boot}

def fatValue (c : ℕ) (s : Fat32FileSystem) : Kernel ℕ := (getFatEntry c s).map Prod.fst

/-- A file system mounted from the disk as it is now has the same table and the same chains. -/
structure Durable (s : Fat32FileSystem) : Prop where
  entries : ∀ b c, c ≤ s.info.clusterCount → fatValue c (mount b s.disk) = fatValue c s
  chains : ∀ b a l, Chain s.entry endOfCluster a l → (∀ c ∈ l, s.info.InCache c) →
    Chain (mount b s.disk).entry endOfCluster a l

def EntryInData (s : Fat32FileSystem) (ip : Inode) : Prop :=
  ip.iPos % 512 + 32 ≤ 512 ∧ ∃ w, s.info.InRange w ∧ s.info.clusterAddr w ≤ ip.iPos ∧
    ip.iPos + 32 ≤ s.info.clusterAddr w + 4096

/-- The calls that leave the table as it is: those that stay inside the chain of their file and
free no chain. `Create` and `Mkdir` always take a cluster. -/
inductive Settled (s : Fat32FileSystem) : FsOp → Prop
  | dots {name : CString} (dir : InodeRef) : IsDots name → Settled s (.lookup dir name)
  | lookup {dir : InodeRef} {ip : Inode} {l : List ℕ} {name : CString} : s.OnChain dir ip l →
      ip.sz = minusOne → s.LookupInside l name → Settled s (.lookup dir name)
  | read {r : InodeRef} {ip : Inode} {l : List ℕ} {off n : ℕ} (dst : ℕ → Bool) : s.OnChain r ip l →
      (off ≤ ip.sz → off + min n (ip.sz - off) ≤ 4096 * l.length) → Settled s (.read r dst off n)
  | rejected {r : InodeRef} {ip : Inode} {off : ℕ} (src : ℕ → Option UInt8) (n : ℕ) :
      s.inode? r = some ip → ip.sz < off → Settled s (.write r src off n)
  | write {r : InodeRef} {ip : Inode} {l : List ℕ} {off n : ℕ} (src : ℕ → Option UInt8) :
      s.OnChain r ip l → off + n ≤ 4096 * l.length → n < 2 ^ 32 → s.EntryInData ip →
      Settled s (.write r src off n)
  | missed {dir : InodeRef} {ip : Inode} {l : List ℕ} {name : CString} : s.OnChain dir ip l →
      ip.sz = minusOne → s.UnlinkMisses l name → Settled s (.unlink dir name)

def SettledStep (s s' : Fat32FileSystem) : Prop := ∃ op, Settled s op ∧ runOp op s = .ok ((), s')

/-! ## Mounting -/

theorem infoOf_congr {disk' : ByteMem} (h : ∀ y < 48, disk' y = disk y) :
    infoOf disk' = infoOf disk := by
  have hread : ∀ a n, a + n ≤ 48 → disk'.readLE a n = disk.readLE a n := fun a n hle =>
    ByteMem.readLE_congr fun y _ hy => h y (by omega)
  simp only [infoOf, hread 11 2 (by norm_num), hread 13 1 (by norm_num), hread 14 2 (by norm_num),
    hread 16 1 (by norm_num), hread 36 4 (by norm_num), hread 32 4 (by norm_num),
    hread 44 4 (by norm_num)]

/-- The constructor fills `fat_cache_` with the sectors of the table. -/
theorem loadFat_eq {info : Fat32Info} {cache : ByteMem} (hb : info.bytesPerSector = 512) {x : ℕ}
    (hx : x < (1024 - info.reserveSectors) * 512) :
    loadFat disk info cache x = disk (info.reserveSectors * 512 + x) := by
  have hloop : ∀ n, info.reserveSectors + n ≤ 1024 → ∀ x < n * 512,
      (List.range n).foldl (fun cache k =>
        let data := rwDevRead disk
          (toInt32 (toInt32 ((info.reserveSectors + k : ℕ) : ℤ) * info.bytesPerSector))
          info.bytesPerSector fun x => cache (k * 512 + x)
        fun x => if k * 512 ≤ x then data (x - k * 512) else cache x) cache x =
      disk (info.reserveSectors * 512 + x) := by
    intro n
    induction n with
    | zero => intro _ x hx; omega
    | succ n ih =>
      intro hn x hx
      rw [List.range_succ, List.foldl_append]
      simp only [List.foldl_cons, List.foldl_nil]
      by_cases hge : n * 512 ≤ x
      · have hk : (info.reserveSectors + n) * 512 + 512 < 2 ^ 31 := by omega
        have haddr : (info.reserveSectors + n) * 512 + (x - n * 512) =
            info.reserveSectors * 512 + x := by omega
        have hx' : x - n * 512 < 512 := by omega
        rw [if_pos hge, hb, rwDevRead_sector hk, if_pos hx', haddr]
      · rw [if_neg hge]
        exact ih (Nat.le_of_succ_le hn) x (not_le.mp hge)
  exact hloop _ (by omega) x hx

theorem entry_mount (hg : (infoOf disk).FatGeometry) (hc : (infoOf disk).InCache c) :
    (mount b disk).entry c = disk.readLE ((infoOf disk).reserveSectors * 512 + 4 * c) 4 := by
  have hsec := hc.sector_lt
  have hcopy : ∀ x < (1024 - (infoOf disk).reserveSectors) * 512,
      (mount b disk).fatCache x = disk ((infoOf disk).reserveSectors * 512 + x) := fun x hx =>
    loadFat_eq hg.bytesPerSector hx
  have hshift : ∀ n a, a + n ≤ (1024 - (infoOf disk).reserveSectors) * 512 →
      (mount b disk).fatCache.readLE a n = disk.readLE
        ((infoOf disk).reserveSectors * 512 + a) n := by
    intro n
    induction n with
    | zero => intro a _; rfl
    | succ n ih =>
      intro a ha
      rw [ByteMem.readLE, ByteMem.readLE, hcopy a (by omega), ih (a + 1) (by omega), add_assoc]
  exact hshift 4 (4 * c) (by omega)

/-! ## Runs that leave the table as it is -/

/-- The table in memory is the one on the disk, which lies before the data area. -/
structure OnDisk (s : Fat32FileSystem) : Prop where
  calm : s.Calm ∅
  info : s.info = infoOf s.disk
  first : s.info.TableFirst
  table : ∀ c, s.info.InCache c → s.entry c = s.diskEntry c

theorem OnDisk.entry_eq (h : s.OnDisk) (hc : s.info.InCache c) (b : Boot) :
    (mount b s.disk).entry c = s.entry c := by
  have hi := h.info
  rw [entry_mount (hi ▸ h.calm.geometry.toFatGeometry) (hi ▸ hc), h.table c hc, diskEntry, hi]

theorem OnDisk.durable (h : s.OnDisk) : s.Durable := by
  have hg := h.calm.geometry.toFatGeometry
  have hinfo : ∀ b, (mount b s.disk).info = s.info := fun b => h.info.symm
  refine ⟨fun b c hc => ?_, fun b a l hl hin => ?_⟩
  · have hg' : (mount b s.disk).info.FatGeometry := by rw [hinfo]; exact hg
    by_cases hsec : s.info.reserveSectors + c * 4 / 512 < 1024
    · have hic : s.info.InCache c := ⟨hc, hsec⟩
      have hic' : (mount b s.disk).info.InCache c := by rw [hinfo]; exact hic
      rw [fatValue, fatValue, getFatEntry_eq hg hic, getFatEntry_eq hg' hic']
      exact congrArg Except.ok (h.entry_eq hic b)
    · have hpanic : ∀ t : Fat32FileSystem, t.info = s.info →
          getFatEntry c t = .error (.panic "get fat entry") := by
        intro t ht
        have hgt : t.info.FatGeometry := by rw [ht]; exact hg
        have hct : c ≤ t.info.clusterCount := by rw [ht]; exact hc
        have hst : ¬ t.info.reserveSectors + c * 4 / 512 < 1024 := by rw [ht]; exact hsec
        simp only [getFatEntry, get_bind, if_neg (not_lt.mpr hct), fatSector_eq hgt hct,
          if_neg hst, throw_apply]
      rw [fatValue, fatValue, hpanic s rfl, hpanic _ (hinfo b)]
  · exact hl.congr fun c hc => h.entry_eq (hin c hc) b

theorem OnDisk.of_low (h : s.OnDisk) (hcalm : s'.Calm ∅) (hi : s'.info = s.info)
    (hf : s'.fatCache = s.fatCache)
    (hlow : ∀ y < s.info.firstDataSector * 512, s'.disk y = s.disk y) : s'.OnDisk := by
  have hboot : ∀ y < 48, y < s.info.firstDataSector * 512 := fun y hy => by
    have := h.first.boot
    omega
  refine ⟨hcalm, ?_, hi ▸ h.first, fun c hc => ?_⟩
  · rw [infoOf_congr fun y hy => hlow y (hboot y hy)]
    exact hi.trans h.info
  · have hc' : s.info.InCache c := hi ▸ hc
    have hbelow := h.first.table c hc'
    have htable := h.table c hc'
    rw [entry, diskEntry] at htable ⊢
    rw [hf, htable, hi]
    exact ByteMem.readLE_congr fun y _ hy => (hlow y (hy.trans_le hbelow)).symm

theorem OnDisk.of_sameVolume (h : s.OnDisk) (hcalm : s'.Calm ∅) (hv : SameVolume s s') : s'.OnDisk :=
  h.of_low hcalm hv.info hv.fatCache fun y _ => congrFun hv.disk y

theorem OnDisk.of_quiet {hK : ∀ c ∈ (∅ : Set ℕ), 2 ≤ c} (h : s.OnDisk)
    (hq : (quiet s r ip l ∅ hK).Inv s') : s'.OnDisk := by
  obtain ⟨iq, l', hf⟩ := hq.file
  have hfat : s'.fatCache = s.fatCache := by
    rcases hf.mode with hm | hm
    · exact hm.1
    · exact hm.1.elim
  have hinfo : s'.info = s.info := hq.info
  exact h.of_low hq.toCalm hinfo hfat fun y hy => hq.low y (by rw [hinfo]; exact hy)

theorem OnDisk.settledStep (h : s.OnDisk) (hs : SettledStep s s') : s'.OnDisk := by
  have hK : ∀ c ∈ (∅ : Set ℕ), 2 ≤ c := fun c hc => absurd hc (Set.notMem_empty c)
  obtain ⟨op, hset, hrun⟩ := hs
  cases hset with
  | dots dir hd =>
    obtain ⟨v, hok⟩ := runOp_eq_ok hrun
    have hsame := lookup_dots hd hok
    exact h.of_sameVolume (h.calm.of_sameCore hsame) hsame.toSameVolume
  | @lookup dir ip l name hon hsz hin =>
    obtain ⟨v, hok⟩ := runOp_eq_ok hrun
    by_cases hd : IsDots name
    · have hsame := lookup_dots hd hok
      exact h.of_sameVolume (h.calm.of_sameCore hsame) hsame.toSameVolume
    · obtain ⟨hcalm, hv⟩ := h.calm.lookup_quiet hK hon hsz hd hin hok
      exact h.of_sameVolume hcalm hv
  | read dst hon hin =>
    obtain ⟨v, hok⟩ := runOp_eq_ok hrun
    exact h.of_quiet ((h.calm.scanning hK hon).1.readInode hon.node hin hok)
  | rejected src n hip hlt =>
    obtain ⟨v, hok⟩ := runOp_eq_ok hrun
    rw [writeInode, bind_of_ok (inode_eq hip), if_pos (Or.inl hlt)] at hok
    cases hok
    exact h
  | write src hon hin hn he =>
    obtain ⟨v, hok⟩ := runOp_eq_ok hrun
    obtain ⟨h512, w, hw, hlo, hhi⟩ := he
    exact h.of_quiet ((h.calm.scanning hK hon).1.writeInode hon.node (fun _ => hin) hn.le
      (Or.inl rfl) ⟨h512, w, hw, hlo, hhi, fun hm => absurd hm (Set.notMem_empty w)⟩ hok)
  | missed hon hsz hin =>
    obtain ⟨v, hok⟩ := runOp_eq_ok hrun
    obtain ⟨hcalm, hv⟩ := h.calm.unlink_quiet hK hon hsz hin hok
    exact h.of_sameVolume hcalm hv

/-- In every run of calls that leave the table as it is, the file system in every state reached
finds the same table when it is mounted again. -/
theorem durable_of_run (hg : (infoOf disk).Geometry)
    (hr : ∀ c, 2 ≤ c → (infoOf disk).InCache c → (infoOf disk).InRange c)
    (hfirst : (infoOf disk).TableFirst) (hd : b.buffers.Distinct)
    (hrun : ReflTransGen SettledStep (mount b disk) s) : s.Durable := by
  have h : s.OnDisk := by
    induction hrun with
    | refl =>
      have hcalm : (mount b disk).Calm ∅ :=
        calm_mount hg hr hd fun _ c _ hc => absurd hc (Set.notMem_empty c)
      exact ⟨hcalm, rfl, hfirst, fun c hc => entry_mount hg.toFatGeometry hc⟩
    | tail _ hs ih => exact ih.settledStep hs
  exact h.durable

theorem lookupInside_oneFile : oneFile.LookupInside [4] nameA := by
  intro V hV
  have hview : ∀ x < 4096, V x = oneFile.disk (59392 + x) := by
    intro x hx
    rcases hV 0 4 rfl with h | ⟨i, hi, -⟩
    · have hx' := h x hx
      rwa [Nat.mul_zero, Nat.zero_add] at hx'
    · cases hi.valid
  have hentries : entriesFrom V 0 (128 * [4].length) =
      entriesFrom (fun x => oneFile.disk (59392 + x)) 0 (128 * [4].length) := by
    refine List.map_congr_left fun j hj => funext fun x => ?_
    rw [List.mem_range'_1, List.length_singleton] at hj
    split
    · exact hview _ (by omega)
    · rfl
  rw [hentries]
  have hret : (lookupScan nextEntry nameA scanFuel oneFile.junk
      (entriesFrom (fun x => oneFile.disk (59392 + x)) 0 (128 * [4].length))).isOk = true := by
    decide +kernel
  cases h : lookupScan nextEntry nameA scanFuel oneFile.junk
      (entriesFrom (fun x => oneFile.disk (59392 + x)) 0 (128 * [4].length)) with
  | error e =>
    rw [h] at hret
    cases hret
  | ok q => exact ⟨q, rfl⟩

theorem lookup_write_oneFile : ∃ s₁ s₂ ip, runOp (.lookup .root nameA) oneFile = .ok ((), s₁) ∧
    runOp (.write (.pos 59392) (fun _ => some 7) 0 1) s₁ = .ok ((), s₂) ∧
    s₁.info = oneFile.info ∧ s₁.entry 2 = endOfCluster ∧ s₁.inodes 59392 = some ip ∧
    ip.iStart = 2 ∧ ip.iLogi = 0 ∧ ip.iClus = 2 ∧ ip.iPos = 59392 ∧ ip.sz = 1 := by
  have hcex : (match runOp (.lookup .root nameA) oneFile with
      | .ok (_, s) => (runOp (.write (.pos 59392) (fun _ => some 7) 0 1) s).isOk &&
          decide (s.info = oneFile.info ∧ s.entry 2 = endOfCluster) &&
          ((s.inodes 59392).map fun ip => (ip.iStart, ip.iLogi, ip.iClus, ip.iPos, ip.sz)) ==
            some (2, 0, 2, 59392, 1)
      | .error _ => false) = true := by decide +kernel
  cases h : runOp (.lookup .root nameA) oneFile with
  | error e =>
    rw [h] at hcex
    cases hcex
  | ok q =>
    rw [h] at hcex
    simp only [Bool.and_eq_true, decide_eq_true_eq, beq_iff_eq, Option.map_eq_some_iff,
      Prod.mk.injEq] at hcex
    obtain ⟨⟨hwrite, hinfo, hentry⟩, ip, hip, hfields⟩ := hcex
    cases hw : runOp (.write (.pos 59392) (fun _ => some 7) 0 1) q.2 with
    | error e =>
      rw [hw] at hwrite
      cases hwrite
    | ok w => exact ⟨q.2, w.2, ip, rfl, hw, hinfo, hentry, hip, hfields⟩
/-- The run of a lookup and a write inside the chain of the file. -/
theorem durable_of_run_oneFile : ∃ s₁ s₂, runOp (.lookup .root nameA) oneFile = .ok ((), s₁) ∧
    runOp (.write (.pos 59392) (fun _ => some 7) 0 1) s₁ = .ok ((), s₂) ∧ s₂.Durable := by
  obtain ⟨s₁, s₂, ip, hlook, hwrite, hinfo, hlast, hip, hstart, hlogi, hclus, hpos, hsz⟩ :=
    lookup_write_oneFile
  have hcalm := calm_oneFile (K := ∅)
  have hinfo' : s₁.info = ⟨100, 100, 4096, 512, 8, 32, 4⟩ := hinfo.trans info_oneFile
  have hfirst : (infoOf oneFileDisk).TableFirst := by
    rw [info_oneFile]
    refine ⟨by norm_num, fun c hc => ?_⟩
    have : c ≤ 100 := hc.le_count
    change 32 * 512 + 4 * c + 4 ≤ 100 * 512
    omega
  have hchains : s₁.Chains {2} fun _ => [2] := by
    refine ⟨?_, ?_, ?_, ?_, ?_⟩
    · rintro a rfl
      exact ⟨rfl, by decide, hlast⟩
    · rintro a rfl
      decide
    · rintro a rfl c hc
      rw [List.mem_singleton] at hc
      omega
    · rintro a rfl c hc
      rw [List.mem_singleton.mp hc, hinfo']
      exact ⟨by norm_num, by norm_num⟩
    · rintro a rfl b rfl hne
      exact absurd rfl hne
  have hon : s₁.OnChain (.pos 59392) ip [2] := by
    refine ⟨hip, ?_, .inl (by rw [hlogi, hclus]; rfl), by rw [hsz]; norm_num⟩
    rw [startOf, if_neg (by simp), hstart]
    exact hchains
  have hentry : s₁.EntryInData ip := by
    rw [EntryInData, hpos, hinfo']
    exact ⟨by norm_num, 4, ⟨by norm_num, by decide⟩, by decide, by decide⟩
  have hstep₁ : SettledStep oneFile s₁ :=
    ⟨_, .lookup onChain_oneFile rfl lookupInside_oneFile, hlook⟩
  have hstep₂ : SettledStep s₁ s₂ := ⟨_, .write _ hon (by norm_num) (by norm_num) hentry, hwrite⟩
  exact ⟨s₁, s₂, hlook, hwrite, durable_of_run (b := bootMemory) hcalm.geometry hcalm.range hfirst
    hcalm.distinct (.tail (.single hstep₁) hstep₂)⟩

def nameB : CString := ⟨fun i => if i = 0 then 0x42 else 0, 1, rfl, by decide⟩

/-- After a file has been created its cluster is taken in memory and free on the disk. -/
theorem not_durable_oneFile : ¬ ∀ (b : Boot) (disk : ByteMem) (s : Fat32FileSystem),
    ReflTransGen OpStep (mount b disk) s → ∀ b' c, c ≤ s.info.clusterCount →
    fatValue c (mount b' s.disk) = fatValue c s := by
  intro hall
  have hcex : (match runOp (.create .root nameB 0o100644) oneFile with
      | .ok (_, s) => decide (3 ≤ s.info.clusterCount) &&
          (fatValue 3 (mount bootMemory s.disk)).toOption == some 0 &&
          (fatValue 3 s).toOption == some endOfCluster
      | .error _ => false) = true := by decide +kernel
  cases hrun : runOp (.create .root nameB 0o100644) oneFile with
  | error e =>
    rw [hrun] at hcex
    cases hcex
  | ok q =>
    rw [hrun] at hcex
    simp only [Bool.and_eq_true, decide_eq_true_eq, beq_iff_eq] at hcex
    obtain ⟨⟨hle, hdisk⟩, hmem⟩ := hcex
    have := hall bootMemory oneFileDisk q.2 (.single ⟨_, hrun⟩) bootMemory 3 hle
    rw [this, hmem] at hdisk
    exact absurd hdisk (by decide)

end Fat32FileSystem

end StartOS
