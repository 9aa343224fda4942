import Mathlib.Logic.Relation
import StartOS.Fs.FsOp

/-! # Coherence of the buffers

`UpdateInode` and `ZeroCluster` write to the disk past the buffers. The buffers
stay coherent over a run as long as neither of them meets a cluster that is in a
buffer; looking a file up and then writing to it already does.
-/

namespace StartOS.Fat32FileSystem

open Linked Hoare BufferLayer Relation

variable {s s' : Fat32FileSystem} {r : InodeRef} {ip : Inode} {l : List ℕ} {off n : ℕ}
  {name : CString}

def Coherent (s : Fat32FileSystem) : Prop :=
  ∀ i c, 2 ≤ c → s.buffers.Holds i c → ∀ x < 4096,
    (s.buffers.bufCache i).data x = s.disk (s.info.clusterAddr c + x)

def dataClusters : Set ℕ := {c | 2 ≤ c}

theorem Calm.toCoherent (h : s.Calm dataClusters) : s.Coherent :=
  fun i c hc hi => h.coherent i c hi hc

/-- No buffer holds a free cluster, so `ZeroCluster` meets none. -/
def NoFreeBuffered (s : Fat32FileSystem) : Prop :=
  ∀ i c, 2 ≤ c → s.buffers.Holds i c → ¬ s.Free c

/-- The directory entry of the file lies in a cluster in use that is not one of the file and not
in a buffer, so `UpdateInode` meets none. -/
def EntryApart (s : Fat32FileSystem) (ip : Inode) (l : List ℕ) : Prop :=
  ip.iPos % 512 + 32 ≤ 512 ∧ ∃ w, s.info.InRange w ∧ s.info.clusterAddr w ≤ ip.iPos ∧
    ip.iPos + 32 ≤ s.info.clusterAddr w + 4096 ∧ w ∉ l ∧ (∀ i, ¬ s.buffers.Holds i w) ∧ ¬ s.Free w

/-- The calls that keep the buffers coherent. `Mkdir` is not among them: it stores the entry of
the new directory right after `Lookup` has put the cluster of that entry into a buffer. -/
inductive Safe (s : Fat32FileSystem) : FsOp → Prop
  | create {dir : InodeRef} {ip : Inode} {l : List ℕ} (name : CString) (mode : ℕ) :
      s.OnChain dir ip l → s.NoFreeBuffered → s.EntryApart ip l → Safe s (.create dir name mode)
  | dots {name : CString} (dir : InodeRef) : IsDots name → Safe s (.lookup dir name)
  | lookup {dir : InodeRef} {ip : Inode} {l : List ℕ} {name : CString} : s.OnChain dir ip l →
      s.NoFreeBuffered ∨ (ip.sz = minusOne ∧ s.LookupInside l name) → Safe s (.lookup dir name)
  | read {r : InodeRef} {ip : Inode} {l : List ℕ} {off n : ℕ} (dst : ℕ → Bool) : s.OnChain r ip l →
      s.NoFreeBuffered ∨ (off ≤ ip.sz → off + min n (ip.sz - off) ≤ 4096 * l.length) →
      Safe s (.read r dst off n)
  | rejected {r : InodeRef} {ip : Inode} {off : ℕ} (src : ℕ → Option UInt8) (n : ℕ) :
      s.inode? r = some ip → ip.sz < off → Safe s (.write r src off n)
  | write {r : InodeRef} {ip : Inode} {l : List ℕ} {src : ℕ → Option UInt8} {off n : ℕ} :
      s.OnChain r ip l → s.NoFreeBuffered ∨ off + n ≤ 4096 * l.length → n < 2 ^ 32 →
      WholeClusters src off n → s.EntryApart ip l → Safe s (.write r src off n)
  | missed {dir : InodeRef} {ip : Inode} {l : List ℕ} {name : CString} : s.OnChain dir ip l →
      ip.sz = minusOne → s.UnlinkMisses l name → Safe s (.unlink dir name)
  | unlink {dir : InodeRef} {ip : Inode} {l : List ℕ} (name : CString) : s.OnChain dir ip l →
      s.NoFreeBuffered → s.EntryApart ip l → Safe s (.unlink dir name)

def OpStep (s s' : Fat32FileSystem) : Prop := ∃ op, runOp op s = .ok ((), s')

def SafeStep (s s' : Fat32FileSystem) : Prop := ∃ op, Safe s op ∧ runOp op s = .ok ((), s')

def watching (s : Fat32FileSystem) (r : InodeRef) (ip : Inode) (reach : ℕ) (A : Set ℕ) : Session :=
  ⟨s, r, ip.iPos, reach, True, dataClusters, A, fun _ hc => hc⟩

theorem wide_watching (s : Fat32FileSystem) (r : InodeRef) (ip : Inode) (A : Set ℕ) :
    (watching s r ip (2 ^ 21 + 1) A).Wide := ⟨Nat.lt_succ_self _, trivial⟩

theorem Calm.watching {A : Set ℕ} (h : s.Calm dataClusters) (hon : s.OnChain r ip l) (reach : ℕ)
    (hm : s.NoFreeBuffered ∨ reach ≤ l.length)
    (hA : ∀ w ∈ A, w ∉ l ∧ (∀ i, ¬ s.buffers.Holds i w) ∧ ¬ s.Free w) :
    (Fat32FileSystem.watching s r ip reach A).Inv s := by
  refine ⟨h, rfl, fun _ _ => rfl, fun w hw => (hA w hw).2, ip, l, hon, rfl, ?_, fun w hw => (hA w hw).1⟩
  exact hm.symm.imp (fun hr => ⟨rfl, hr⟩) fun hn => ⟨trivial, fun i c hi hc => hn i c hc hi⟩

theorem EntryApart.watching (he : s.EntryApart ip l) (h : s.Calm dataClusters)
    (hon : s.OnChain r ip l) (reach : ℕ) (hm : s.NoFreeBuffered ∨ reach ≤ l.length) :
    ∃ A, (Fat32FileSystem.watching s r ip reach A).Inv s ∧
      (Fat32FileSystem.watching s r ip reach A).EntrySpared s.info := by
  obtain ⟨h512, w, hw, hlo, hhi, hwl, hwb, hwf⟩ := he
  refine ⟨{w}, h.watching hon reach hm ?_, h512, w, hw, hlo, hhi, fun _ => rfl⟩
  rintro v rfl
  exact ⟨hwl, hwb, hwf⟩

theorem freeClusterChain_keeps {K : Set ℕ} (c : ℕ) :
    Keeps (fun s => s.Calm K) (freeClusterChain c) := by
  refine Keeps.get.bind fun s₀ => ?_
  generalize 2 * s₀.info.clusterCount + 4 = fuel
  have hget : ∀ c, Keeps (fun s => s.Calm K) (getFatEntry c) := fun c =>
    Keeps.get.bind fun t => Keeps.ite (Keeps.pure _) (Keeps.ite (Keeps.pure _) (Keeps.throw _))
  have hset : ∀ c, Keeps (fun s => s.Calm K) (setFatEntry c 0) := by
    intro c s v s' h hok
    rw [setFatEntry, get_bind] at hok
    split at hok
    · cases hok
      exact h
    · split at hok
      · cases hok
        exact h.congr rfl rfl rfl
      · cases hok
  induction fuel generalizing c with
  | zero => exact Keeps.throw _
  | succ fuel ih =>
    exact Keeps.ite (Keeps.pure _)
      ((hget c).bind fun next => (hset c).bind fun _ => ih next)

theorem Calm.unlink_apart {v : ℤ} (h : s.Calm dataClusters) (hon : s.OnChain r ip l)
    (hn : s.NoFreeBuffered) (he : s.EntryApart ip l) (hok : unlink r name s = .ok (v, s')) :
    s'.Calm dataClusters := by
  obtain ⟨A, hinv, hent⟩ := he.watching h hon (2 ^ 21 + 1) (Or.inl hn)
  have hw := wide_watching s r ip A
  rw [unlink, bind_of_ok (entryFuel_eq hon.node), get_bind] at hok
  obtain ⟨g?, s₁, hscan, hok⟩ := bind_eq_ok.mp hok
  obtain ⟨h₁, hoff⟩ := scanLoop_ensures (Session.readEntry_ensures hw) _ _ _ _ hinv hscan
  cases g? with
  | none =>
    cases hok
    exact h₁.toCalm
  | some g =>
    obtain ⟨pos, s₂, hpos, hok⟩ := bind_eq_ok.mp hok
    have h₂ := Session.entryPos_keeps hw g (hoff g rfl) h₁ hpos
    obtain ⟨q, s₃, hget, hlast⟩ := bind_eq_ok.mp hok
    cases q with
    | some q =>
      have h₃ : SameCore s₂ s' :=
        ((freeInode_keeps q).bind fun _ => Keeps.pure _) (getInode_keeps pos (.refl s₂) hget) hlast
      exact h₂.toCalm.of_sameCore h₃
    | none =>
      obtain rfl : s₃ = s₂ := by
        rw [getInode, get_bind] at hget
        cases hi : s₂.inodes pos with
        | none =>
          rw [hi] at hget
          cases hget
          rfl
        | some iq =>
          rw [hi] at hget
          obtain ⟨_, _, -, hbad⟩ := bind_eq_ok.mp hget
          cases hbad
      have hrest := (freeClusterChain_keeps (K := dataClusters) (getStartCluster g.entry)).bind
        fun _ => Keeps.pure (0 : ℤ)
      obtain ⟨_, s₄, hmark, hfree⟩ := bind_eq_ok.mp hlast
      exact hrest (Session.markEntryDeleted_keeps hw hent _ _ h₂ hmark).toCalm hfree

theorem Calm.lookup_growing {v : Option InodeRef} (h : s.Calm dataClusters) (hon : s.OnChain r ip l)
    (hn : s.NoFreeBuffered) (hd : ¬ IsDots name) (hok : lookup r name s = .ok (v, s')) :
    s'.Calm dataClusters := by
  have hinv := h.watching (A := ∅) hon (2 ^ 21 + 1) (Or.inl hn)
    fun w hw => absurd hw (Set.notMem_empty w)
  have hw := wide_watching s r ip ∅
  rw [IsDots, not_or] at hd
  rw [lookup, if_neg hd.1, if_neg hd.2, bind_of_ok (entryFuel_eq hon.node), get_bind] at hok
  obtain ⟨g?, s₁, hscan, hok⟩ := bind_eq_ok.mp hok
  obtain ⟨h₁, hoff⟩ := scanLoop_ensures (Session.readEntry_ensures hw) _ _ _ _ hinv hscan
  cases g? with
  | none =>
    cases hok
    exact h₁.toCalm
  | some g =>
    obtain ⟨pos, s₂, hpos, hok⟩ := bind_eq_ok.mp hok
    have h₂ := Session.entryPos_keeps hw g (hoff g rfl) h₁ hpos
    have h₃ : SameCore s₂ s' := ((buildInode_keeps _ _ _).bind fun _ => Keeps.pure _) (.refl s₂) hok
    exact h₂.toCalm.of_sameCore h₃

theorem Calm.safeStep (h : s.Calm dataClusters) (hs : SafeStep s s') : s'.Calm dataClusters := by
  obtain ⟨op, hsafe, hrun⟩ := hs
  cases hsafe with
  | create name mode hon hn he =>
    obtain ⟨v, hok⟩ := runOp_eq_ok hrun
    obtain ⟨A, hinv, hent⟩ := he.watching h hon (2 ^ 21 + 1) (Or.inl hn)
    exact (Session.create_keeps (wide_watching ..) hent name mode hinv hok).toCalm
  | dots dir hd =>
    obtain ⟨v, hok⟩ := runOp_eq_ok hrun
    exact h.of_sameCore (lookup_dots hd hok)
  | @lookup dir ip l name hon hm =>
    obtain ⟨v, hok⟩ := runOp_eq_ok hrun
    by_cases hd : IsDots name
    · exact h.of_sameCore (lookup_dots hd hok)
    · rcases hm with hn | ⟨hsz, hin⟩
      · exact h.lookup_growing hon hn hd hok
      · exact (h.lookup_quiet (fun _ hc => hc) hon hsz hd hin hok).1
  | @read r ip l off n dst hon hm =>
    obtain ⟨v, hok⟩ := runOp_eq_ok hrun
    rcases hm with hn | hin
    · have hinv := h.watching (A := ∅) hon (2 ^ 21 + 1) (Or.inl hn)
        fun w hw => absurd hw (Set.notMem_empty w)
      exact (Session.readInode_keeps (wide_watching ..) dst off n hinv hok).toCalm
    · have hinv := h.watching (A := ∅) hon l.length (Or.inr le_rfl)
        fun w hw => absurd hw (Set.notMem_empty w)
      exact (hinv.readInode hon.node hin hok).toCalm
  | rejected src n hip hlt =>
    obtain ⟨v, hok⟩ := runOp_eq_ok hrun
    rw [writeInode, bind_of_ok (inode_eq hip), if_pos (Or.inl hlt)] at hok
    cases hok
    exact h
  | @write r ip l src off n hon hm hn hsrc he =>
    obtain ⟨v, hok⟩ := runOp_eq_ok hrun
    have hsz := hon.sz_lt
    rcases hm with hfree | hin
    · obtain ⟨A, hinv, hent⟩ := he.watching h hon (2 ^ 21 + 1) (Or.inl hfree)
      refine (hinv.writeInode hon.node (fun hle => ?_) hn.le (Or.inr hsrc) hent hok).toCalm
      change off + n ≤ 4096 * (2 ^ 21 + 1)
      omega
    · obtain ⟨A, hinv, hent⟩ := he.watching h hon l.length (Or.inr le_rfl)
      exact (hinv.writeInode hon.node (fun _ => hin) hn.le (Or.inr hsrc) hent hok).toCalm
  | missed hon hsz hin =>
    obtain ⟨v, hok⟩ := runOp_eq_ok hrun
    exact (h.unlink_quiet (fun _ hc => hc) hon hsz hin hok).1
  | unlink name hon hn he =>
    obtain ⟨v, hok⟩ := runOp_eq_ok hrun
    exact h.unlink_apart hon hn he hok

/-- In every run of safe calls the buffers are coherent in every state reached. -/
theorem coherent_of_run {s₀ : Fat32FileSystem} (h₀ : s₀.Calm dataClusters)
    (hr : ReflTransGen SafeStep s₀ s) : s.Coherent := by
  have h : s.Calm dataClusters := by
    induction hr with
    | refl => exact h₀
    | tail _ hs ih => exact ih.safeStep hs
  exact h.toCoherent

theorem calm_mount {K : Set ℕ} {b : Boot} {disk : ByteMem} (hg : (infoOf disk).Geometry)
    (hr : ∀ c, 2 ≤ c → (infoOf disk).InCache c → (infoOf disk).InRange c)
    (hd : b.buffers.Distinct) (hc : (mount b disk).CoherentOn K) : (mount b disk).Calm K :=
  ⟨hg, hr, hd, ⟨rfl, hg.sectorsPerCluster⟩, hc⟩

/-- The memory of the kernel when the volume is mounted; the allocator fills pages with 5. -/
def bootMemory : Boot where
  dev := 0
  fatCache := fun _ => 0
  buffers := ⟨fun _ => ⟨false, 0, 0, 0, false, 0, fun _ => 0⟩, 0, 0, Nat.succ, 0⟩
  root := ⟨0x05050505, 0x05050505, 0x05050505, 0x0505050505050505, 0x05050505, 0x0505, 0x05050505,
    .root, fun _ => 5⟩
  stamps := fun _ => ⟨0x5221, 0x6000, 5, 5⟩
  junk := fun _ => 5

/-- A volume of 100 clusters with the root directory in cluster 4, in it the file `A` of one byte
in cluster 2. -/
def oneFileDisk : ByteMem :=
  let d : ByteMem := fun _ => 0
  let d := ((d.writeLE 11 2 512).writeLE 13 1 8).writeLE 14 2 32
  let d := ((d.writeLE 16 1 1).writeLE 32 4 800).writeLE 36 4 68
  let d := d.writeLE 44 4 4
  let d := (d.writeLE (32 * 512 + 8) 4 endOfCluster).writeLE (32 * 512 + 16) 4 endOfCluster
  let d := (d.fill 59392 11 0x20).fill 59392 1 0x41
  (d.writeLE (59392 + 26) 2 2).writeLE (59392 + 28) 4 1

def oneFile : Fat32FileSystem := mount bootMemory oneFileDisk

def nameA : CString := ⟨fun i => if i = 0 then 0x41 else 0, 1, rfl, by decide⟩

theorem info_oneFile : infoOf oneFileDisk = ⟨100, 100, 4096, 512, 8, 32, 4⟩ := by decide +kernel

theorem calm_oneFile {K : Set ℕ} : oneFile.Calm K := by
  refine calm_mount ?_ ?_ (fun i j _ _ _ hne => absurd rfl hne) fun i c hi => ?_
  · rw [info_oneFile]
    exact ⟨⟨rfl, by norm_num, by norm_num⟩, rfl, rfl⟩
  · rw [info_oneFile]
    intro c h2 hc
    have : c ≤ 100 := hc.le_count
    refine ⟨h2, ?_⟩
    simp only [Fat32Info.clusterAddr]
    omega
  · cases hi.valid

theorem onChain_oneFile : oneFile.OnChain .root oneFile.root [4] := by
  have hinfo : oneFile.info = ⟨100, 100, 4096, 512, 8, 32, 4⟩ := info_oneFile
  have hstart : oneFile.startOf .root oneFile.root = 4 := by
    rw [startOf, if_pos rfl, hinfo]
  have hlast : oneFile.entry 4 = endOfCluster := by decide +kernel
  have hcache : oneFile.info.InCache 4 := by
    rw [hinfo]
    exact ⟨by norm_num, by norm_num⟩
  refine ⟨rfl, ?_, Or.inr (by decide), by decide⟩
  rw [hstart]
  refine ⟨?_, ?_, ?_, ?_, ?_⟩
  · rintro a rfl
    exact ⟨rfl, by decide, hlast⟩
  · rintro a rfl
    decide
  · rintro a rfl c hc
    rw [List.mem_singleton] at hc
    omega
  · rintro a rfl c hc
    rw [List.mem_singleton] at hc
    exact hc ▸ hcache
  · rintro a rfl b rfl hne
    exact absurd rfl hne

theorem onChain_smallVolume :
    smallVolume.OnChain (.pos 59392) (freshInode 2 59392 8192) [2, 3] :=
  ⟨rfl, tableInv_smallVolume.chains.single (Or.inl rfl) rfl, Or.inl rfl, by decide⟩

theorem calm_smallVolume {K : Set ℕ} : smallVolume.Calm K := by
  refine ⟨⟨⟨rfl, by decide, by decide⟩, rfl, rfl⟩, fun c h2 hc => ?_, fun _ _ _ _ _ hne => absurd rfl hne,
    ⟨rfl, rfl⟩, fun i c hi _ => ?_⟩
  · have : c ≤ 100 := hc.le_count
    refine ⟨h2, ?_⟩
    simp only [Fat32Info.clusterAddr, smallVolume]
    omega
  · cases hi.valid

theorem coherent_of_run_smallVolume : ∃ s,
    runOp (.write (.pos 59392) (fun _ => some 7) 4094 4) smallVolume = .ok ((), s) ∧ s.Coherent := by
  have hret : (runOp (.write (.pos 59392) (fun _ => some 7) 4094 4) smallVolume).isOk = true := by
    decide +kernel
  have hunbuffered : ∀ i c, ¬smallVolume.buffers.Holds i c := fun i c hi => by cases hi.valid
  have hentry : smallVolume.EntryApart (freshInode 2 59392 8192) [2, 3] := by
    refine ⟨by decide, 4, ⟨by decide, by decide⟩, by decide, by decide, by decide,
      fun i => hunbuffered i 4, fun hfree => ?_⟩
    have hlast : smallVolume.entry 4 = endOfCluster := by decide
    exact absurd (hlast.symm.trans hfree.entry_eq) (by decide)
  cases h : runOp (.write (.pos 59392) (fun _ => some 7) 4094 4) smallVolume with
  | error e =>
    rw [h] at hret
    cases hret
  | ok q =>
    have hsafe : Safe smallVolume (.write (.pos 59392) (fun _ => some 7) 4094 4) :=
      .write onChain_smallVolume (Or.inl fun i c _ hi => absurd hi (hunbuffered i c)) (by decide)
        (Or.inl (by decide)) hentry
    exact ⟨q.2, rfl, coherent_of_run calm_smallVolume (.single ⟨_, hsafe, h⟩)⟩

def lookupAndWrite : List FsOp :=
  [.lookup .root nameA, .write (.pos 59392) (fun _ => some 7) 0 1]

/-- Buffer 0 still has the directory entry of the file as it was before the write. -/
theorem not_coherent_oneFile : ¬ ∀ (b : Boot) (disk : ByteMem) (s : Fat32FileSystem),
    (∀ i, (b.buffers.bufCache i).valid = false) → ReflTransGen OpStep (mount b disk) s →
    s.Coherent := by
  intro hall
  have hcex : (match lookupAndWrite.forM runOp oneFile with
      | .ok (_, s) => decide ((s.buffers.bufCache 0).valid = true ∧
          (s.buffers.bufCache 0).blockno = 4 ∧ s.info = ⟨100, 100, 4096, 512, 8, 32, 4⟩ ∧
          (s.buffers.bufCache 0).data 23 ≠ s.disk (59392 + 23))
      | .error _ => false) = true := by decide +kernel
  cases hrun : lookupAndWrite.forM runOp oneFile with
  | error e =>
    rw [hrun] at hcex
    cases hcex
  | ok q =>
    rw [hrun] at hcex
    obtain ⟨hv, hb, hi, hne⟩ := of_decide_eq_true hcex
    obtain ⟨_, s₁, h₁, hrest⟩ := bind_eq_ok.mp hrun
    obtain ⟨_, s₂, h₂, hdone⟩ := bind_eq_ok.mp hrest
    cases hdone
    have hreach : ReflTransGen OpStep oneFile _ := .tail (.single ⟨_, h₁⟩) ⟨_, h₂⟩
    have := hall bootMemory oneFileDisk _ (fun _ => rfl) hreach 0 4 (by norm_num)
      ⟨by decide, hv, hb⟩ 23 (by norm_num)
    rw [hi] at this
    exact hne this

end StartOS.Fat32FileSystem
