import StartOS.Fs.FileOps

/-! # Files as byte arrays

Seen through `ReadInode` and `WriteInode` each regular file is a byte array of
its own, whatever the order of the calls and whichever buffers are evicted.
-/

namespace StartOS.Fat32FileSystem

open Linked Hoare BufferLayer

variable {s s' : Fat32FileSystem} {S : Set ℕ} {ch : ℕ → List ℕ} {R : Set InodeRef}
  {r : InodeRef} {ip : Inode} {off n v x : ℕ} {w a : List UInt8} {A : InodeRef → List UInt8}

theorem setInode_self (h : s.inode? r = some ip) : s.setInode r ip = s := by
  cases r with
  | root =>
    cases h
    rfl
  | pos p =>
    have : Function.update s.inodes p (some ip) = s.inodes :=
      Function.update_eq_self_iff.mpr h.symm
    simp only [setInode, this]

theorem fileByte_setInode {l : List ℕ} : fileByte (s.setInode r ip) l x = fileByte s l x := by
  rw [fileByte, disk_setInode, info_setInode]
  rfl

namespace FilesInv

theorem sz_le (h : FilesInv s S ch R) (hr : r ∈ R) (hip : s.inode? r = some ip) :
    ip.sz ≤ 2 ^ 29 := by
  have h₁ := h.size r hr ip hip
  have h₂ := (h.table.chains.length_le (h.table.cursor_of hr hip).1).2
  omega

theorem setSize (h : FilesInv s S ch R) (hr : r ∈ R) (hip : s.inode? r = some ip)
    (hv : v ≤ 4096 * (ch (s.startOf r ip)).length) :
    FilesInv (s.setInode r { ip with sz := v }) S ch R := by
  set t := s.setInode r { ip with sz := v } with ht
  have hinfo : t.info = s.info := info_setInode ..
  have hst : ∀ q iq, t.startOf q iq = s.startOf q iq := fun q iq => startOf_of_info hinfo
  have hback : ∀ q iq, t.inode? q = some iq → ∃ jq, s.inode? q = some jq ∧
      s.startOf q iq = s.startOf q jq ∧ iq.iPos = jq.iPos ∧
      (iq.sz = jq.sz ∨ (q = r ∧ iq.sz = v)) := by
    intro q iq hq
    rw [inode?_setInode] at hq
    split at hq
    · rename_i he
      cases hq
      subst he
      exact ⟨ip, hip, rfl, rfl, Or.inr ⟨rfl, rfl⟩⟩
    · exact ⟨iq, hq, rfl, rfl, Or.inl rfl⟩
  refine ⟨h.table.setInode hr hip rfl (h.table.cursor_of hr hip).2, hinfo ▸ h.geometry,
    hinfo ▸ h.range, ?_, ?_, fun q hq iq hiq => ?_, fun q hq iq hiq => ?_, fun q hq iq hiq => ?_⟩
  · rw [buffers_setInode]
    exact h.idle
  · rw [buffers_setInode, hinfo]
    exact h.matches'
  · obtain ⟨jq, hjq, hse, -⟩ := hback q iq hiq
    rw [hst, hse, hinfo, buffers_setInode, disk_setInode]
    exact h.coherent q hq jq hjq
  · obtain ⟨jq, hjq, hse, -, hsz⟩ := hback q iq hiq
    rw [hst, hse]
    rcases hsz with hsz | ⟨rfl, hsz⟩
    · rw [hsz]
      exact h.size q hq jq hjq
    · rw [hip] at hjq
      cases hjq
      rw [hsz]
      exact hv
  · obtain ⟨jq, hjq, -, hpos, -⟩ := hback q iq hiq
    obtain ⟨h512, d, hd, hne, hc⟩ := h.entry q hq jq hjq
    rw [hpos, hinfo]
    refine ⟨h512, d, hd, fun q' hq' iq' hiq' => ?_, hc⟩
    obtain ⟨jq', hjq', hse', -⟩ := hback q' iq' hiq'
    rw [hst, hse']
    exact hne q' hq' jq' hjq'

/-- `UpdateInode` stores into the directory and leaves the files alone. -/
theorem updateInode (h : FilesInv s S ch R) (hr : r ∈ R) (hip : s.inode? r = some ip) :
    ∃ s', updateInode r s = .ok ((), s') ∧ FilesInv s' S ch R ∧ s'.info = s.info ∧
      (∀ q, s'.inode? q = s.inode? q) ∧ ∀ q ∈ R, ∀ iq, s.inode? q = some iq →
        ∀ x < 4096 * (ch (s.startOf q iq)).length,
          fileByte s' (ch (s.startOf q iq)) x = fileByte s (ch (s.startOf q iq)) x := by
  obtain ⟨h512, d, hd, hne, c, hc, hpos, hpos'⟩ := h.entry r hr ip hip
  have hcr := h.inRange hd hc
  have hlt := hcr.lt
  have halign : s.info.clusterAddr c % 512 = 0 := by simp only [Fat32Info.clusterAddr]; omega
  have heq := updateInode_eq h.table.geometry hip h512 (by omega)
  set t : Fat32FileSystem := { s with
    stampNo := s.stampNo + 1
    disk := s.disk.blit ip.iPos 32 (inodeEntry ip (s.stamps s.stampNo)) } with ht
  have hnode : ∀ q, t.inode? q = s.inode? q := fun q => by cases q <;> rfl
  have hdisk : ∀ q ∈ R, ∀ iq, s.inode? q = some iq → ∀ e ∈ ch (s.startOf q iq), ∀ x < 4096,
      t.disk (s.info.clusterAddr e + x) = s.disk (s.info.clusterAddr e + x) := by
    intro q hq iq hiq e he x hx
    have hqS := (h.table.cursor_of hq hiq).1
    have hec : e ≠ c := fun hec =>
      h.table.chains.disjoint _ hqS d hd (hne q hq iq hiq) he (hec ▸ hc)
    have hout : ¬ s.info.InCluster c (s.info.clusterAddr e + x) := fun hin =>
      hec (Fat32Info.InCluster.eq ⟨by omega, by omega⟩ hin (h.inRange hqS he).two_le hcr.two_le)
    simp only [Fat32Info.InCluster] at hout
    exact ByteMem.blit_of_not_mem (by omega)
  refine ⟨t, heq, ⟨?_, h.geometry, h.range, h.idle, h.matches', fun q hq iq hiq e he j hj x hx => ?_,
    fun q hq iq hiq => ?_, fun q hq iq hiq => ?_⟩, rfl, hnode, fun q hq iq hiq x hx => ?_⟩
  · exact h.table.of_state (h.table.chains.congr rfl fun _ _ _ _ => rfl) rfl hnode
      fun q hq iq hiq => ⟨(h.table.cursor_of hq hiq).1, List.prefix_rfl⟩
  · rw [hnode] at hiq
    rw [show t.info = s.info from rfl, hdisk q hq iq hiq e he x hx]
    exact h.coherent q hq iq hiq e he j hj x hx
  · rw [hnode] at hiq
    exact h.size q hq iq hiq
  · rw [hnode] at hiq
    obtain ⟨h₁, e, he, hne', hc'⟩ := h.entry q hq iq hiq
    exact ⟨h₁, e, he, fun q' hq' iq' hiq' => hne' q' hq' iq' ((hnode q').symm.trans hiq'), hc'⟩
  · have hxl : x / 4096 < (ch (s.startOf q iq)).length := by omega
    have hm : (ch (s.startOf q iq)).getD (x / 4096) 0 ∈ ch (s.startOf q iq) := by
      rw [List.getD_eq_getElem _ _ hxl]
      exact List.getElem_mem _
    exact hdisk q hq iq hiq _ hm _ (Nat.mod_lt _ (by omega))

end FilesInv

structure Sim (s : Fat32FileSystem) (S : Set ℕ) (ch : ℕ → List ℕ) (R : Set InodeRef)
    (A : InodeRef → List UInt8) : Prop where
  inv : FilesInv s S ch R
  length : ∀ r ∈ R, ∀ ip, s.inode? r = some ip → (A r).length = ip.sz
  bytes : ∀ r ∈ R, ∀ ip, s.inode? r = some ip → ∀ x < ip.sz,
    (A r)[x]? = some (fileByte s (ch (s.startOf r ip)) x)

def splice (a : List UInt8) (off : ℕ) (w : List UInt8) : List UInt8 :=
  a.take off ++ (w ++ a.drop (off + w.length))

theorem length_splice (h : off ≤ a.length) :
    (splice a off w).length = max a.length (off + w.length) := by
  simp only [splice, List.length_append, List.length_take, List.length_drop]
  omega

theorem getElem?_splice (h : off ≤ a.length) (x : ℕ) : (splice a off w)[x]? =
    if off ≤ x ∧ x < off + w.length then w[x - off]? else a[x]? := by
  have hlen : (a.take off).length = off := by simp [h]
  rw [splice]
  by_cases h₁ : x < off
  · rw [List.getElem?_append_left (by omega), List.getElem?_take_of_lt h₁, if_neg (by omega)]
  · rw [List.getElem?_append_right (by omega), hlen]
    by_cases h₂ : x < off + w.length
    · rw [List.getElem?_append_left (by omega), if_pos (by omega)]
    · rw [List.getElem?_append_right (by omega), List.getElem?_drop, if_neg (by omega)]
      congr 1
      omega

namespace Sim

theorem exists_inode (h : Sim s S ch R A) (hr : r ∈ R) : ∃ ip, s.inode? r = some ip := by
  obtain ⟨ip, hip, -⟩ := h.inv.table.cursor r hr
  exact ⟨ip, hip⟩

theorem writeInode_reject (hip : s.inode? r = some ip) (hoff : ip.sz < off)
    (src : ℕ → Option UInt8) : writeInode r src off n s = .ok (-1, s) := by
  rw [writeInode, bind_of_ok (inode_eq hip), if_pos (Or.inl hoff), pure_apply]

theorem writeInode_tail {ip₁ : Inode} {src : ℕ → Option UInt8} {off' : ℕ} {z : ℤ}
    {s₁ s₂ : Fat32FileSystem} (hip : s.inode? r = some ip) (hle : off ≤ ip.sz)
    (hwrap : off + n < 2 ^ 64)
    (hloop : writeLoop r src n (n + 1) 0 off s = .ok ((z, off'), s₁))
    (hip₁ : s₁.inode? r = some ip₁) (hlt : off' < 2 ^ 32)
    (hup : updateInode r (s₁.setInode r { ip₁ with sz := max ip₁.sz off' }) = .ok ((), s₂)) :
    writeInode r src off n s = .ok (z, s₂) := by
  have hno : ¬ (off > ip.sz ∨ (off + n) % 2 ^ 64 < off) := by
    rw [Nat.mod_eq_of_lt hwrap]
    omega
  rw [writeInode, bind_of_ok (inode_eq hip), if_neg hno, bind_of_ok hloop]
  simp only [bind_of_ok (inode_eq hip₁)]
  by_cases hgt : off' > ip₁.sz
  · rw [if_pos hgt, bind_of_ok (updateInodeWith_eq hip₁), Nat.mod_eq_of_lt hlt]
    rw [max_eq_right hgt.le] at hup
    rw [bind_of_ok hup, pure_apply]
  · rw [max_eq_left (by omega), setInode_self hip₁] at hup
    rw [if_neg hgt, bind_of_ok hup, pure_apply]

theorem updateInode (h : Sim s S ch R A) (hr : r ∈ R) (hip : s.inode? r = some ip) :
    ∃ s', Fat32FileSystem.updateInode r s = .ok ((), s') ∧ Sim s' S ch R A := by
  obtain ⟨s', hup, hinv, hinfo, hnode, hbytes⟩ := h.inv.updateInode hr hip
  refine ⟨s', hup, hinv, fun q hq iq hiq => ?_, fun q hq iq hiq x hx => ?_⟩
  · rw [hnode] at hiq
    exact h.length q hq iq hiq
  · rw [hnode] at hiq
    rw [startOf_of_info hinfo, hbytes q hq iq hiq x (hx.trans_le (h.inv.size q hq iq hiq))]
    exact h.bytes q hq iq hiq x hx

theorem wrote {ext : List ℕ} {k c : ℕ} (h : Sim s S ch R A) (hr : r ∈ R)
    (hip : s.inode? r = some ip) (hle : off ≤ ip.sz)
    (hw : Wrote s S ch R r ip ext off w.length (fun j => w.getD j 0) s')
    (hip' : s'.inode? r = some { ip with iLogi := k, iClus := c }) :
    Sim (s'.setInode r { ip with iLogi := k, iClus := c, sz := max ip.sz (off + w.length) }) S
      (Function.update ch (s.startOf r ip) (ch (s.startOf r ip) ++ ext)) R
      (Function.update A r (splice (A r) off w)) := by
  set a := s.startOf r ip with ha
  set t := s'.setInode r { ip with iLogi := k, iClus := c, sz := max ip.sz (off + w.length) }
    with ht
  have hlenA := h.length r hr ip hip
  have hszle : ip.sz ≤ 4096 * (ch a).length := h.inv.size r hr ip hip
  have hinfo : t.info = s.info := (info_setInode ..).trans hw.info
  have hself : Function.update ch a (ch a ++ ext) a = ch a ++ ext := Function.update_self ..
  have hinv : FilesInv t S (Function.update ch a (ch a ++ ext)) R := by
    refine hw.inv.setSize hr hip' ?_
    have hst : s'.startOf r { ip with iLogi := k, iClus := c } = a := startOf_of_info hw.info
    have hlen : off + w.length ≤ 4096 * (ch a ++ ext).length := hw.length_le
    rw [hst, hself]
    rw [List.length_append] at hlen ⊢
    omega
  have hback : ∀ q iq, t.inode? q = some iq → (q = r ∧
      iq = { ip with iLogi := k, iClus := c, sz := max ip.sz (off + w.length) }) ∨
      (q ≠ r ∧ s.inode? q = some iq) := by
    intro q iq hiq
    rw [inode?_setInode] at hiq
    split at hiq
    · rename_i he
      exact Or.inl ⟨he, (Option.some.inj hiq).symm⟩
    · rename_i he
      exact Or.inr ⟨he, (hw.node_other q he).symm.trans hiq⟩
  refine ⟨hinv, fun q hq iq hiq => ?_, fun q hq iq hiq x hx => ?_⟩
  · rcases hback q iq hiq with ⟨rfl, rfl⟩ | ⟨hqr, hiq'⟩
    · rw [Function.update_self, length_splice (hle.trans_eq hlenA.symm), hlenA]
    · rw [Function.update_of_ne hqr, h.length q hq iq hiq']
  · rw [startOf_of_info hinfo, fileByte_setInode]
    rcases hback q iq hiq with ⟨rfl, rfl⟩ | ⟨hqr, hiq'⟩
    · have hst : s.startOf q { ip with
          iLogi := k, iClus := c, sz := max ip.sz (off + w.length) } = a := rfl
      have hx' : x < max ip.sz (off + w.length) := hx
      have hb : fileByte s' (ch a ++ ext) x =
          if off ≤ x ∧ x < off + w.length then w.getD (x - off) 0 else fileByte s (ch a) x :=
        hw.bytes x (by rw [← ha]; omega)
      rw [hst, hself, Function.update_self, getElem?_splice (hle.trans_eq hlenA.symm), hb]
      split
      · rename_i hin
        have hj : x - off < w.length := by omega
        rw [List.getElem?_eq_getElem hj, List.getD_eq_getElem _ _ hj]
      · exact h.bytes q hq ip hip x (by omega)
    · have hne : s.startOf q iq ≠ a := fun he =>
        hqr (h.inv.table.distinct q hq r hr iq ip hiq' hip he)
      rw [Function.update_of_ne hqr, Function.update_of_ne hne, hw.others _
        (h.inv.table.cursor_of hq hiq').1 hne x (hx.trans_le (h.inv.size q hq iq hiq'))]
      exact h.bytes q hq iq hiq' x hx

theorem writeInode_accept (h : Sim s S ch R A) (hr : r ∈ R) (hip : s.inode? r = some ip)
    (hle : off ≤ ip.sz) (hn : w.length < 2 ^ 32)
    (hroom : s.Room ((off + w.length + 4095) / 4096 - (ch (s.startOf r ip)).length)) :
    ∃ ch' s', writeInode r (fun j => w[j]?) off w.length s = .ok ((w.length : ℤ), s') ∧
      Sim s' S ch' R (Function.update A r (splice (A r) off w)) := by
  have hsz := h.inv.sz_le hr hip
  obtain ⟨ext, s₁, hloop, hw⟩ := writeLoop_spec (w := fun j => w.getD j 0) (n := w.length)
    (fun j => w[j]?) (w.length + 1) 0 h.inv hr hip (hle.trans (h.inv.size r hr ip hip))
    (fun j hj => by rw [List.getElem?_eq_getElem hj, List.getD_eq_getElem _ _ hj]) (Nat.zero_le _)
    (by omega) hroom
  simp only [Nat.sub_zero, Nat.zero_add] at hloop hw
  obtain ⟨k, c, hip₁⟩ := hw.node_self
  have hsim := h.wrote hr hip hle hw hip₁
  obtain ⟨s₃, hup, hsim₃⟩ := hsim.updateInode hr ((inode?_setInode ..).trans (if_pos rfl))
  -- the chain is too short for a length that the `int` result cannot hold
  have hlt : off + w.length ≤ 2 ^ 29 := by
    have h₁ := hw.length_le
    have h₂ := (hw.inv.table.chains.length_le (h.inv.table.cursor_of hr hip).1).2
    rw [Function.update_self] at h₂
    omega
  rw [toInt32_of_lt (by omega) (by omega)] at hloop
  exact ⟨_, s₃, writeInode_tail hip hle (by omega) hloop hip₁ (by omega) hup, hsim₃⟩

theorem writeInode_stuck (h : Sim s S ch R A) (hr : r ∈ R) (hip : s.inode? r = some ip)
    (hle : off ≤ ip.sz) (hn : w.length < 2 ^ 32)
    (hroom : ¬ s.Room ((off + w.length + 4095) / 4096 - (ch (s.startOf r ip)).length)) :
    ∃ e, writeInode r (fun j => w[j]?) off w.length s = .error e := by
  have hsz := h.inv.sz_le hr hip
  have hno : ¬ (off > ip.sz ∨ (off + w.length) % 2 ^ 64 < off) := by
    rw [Nat.mod_eq_of_lt (by omega)]
    omega
  obtain ⟨e, he⟩ := writeLoop_stuck (n := w.length) (fun j => w[j]?) (w.length + 1) 0
    h.inv hr hip (hle.trans (h.inv.size r hr ip hip)) (fun j hj => by simp [hj])
    hroom
  exact ⟨e, by rw [writeInode, bind_of_ok (inode_eq hip), if_neg hno, bind_of_error he]⟩

theorem readInode (h : Sim s S ch R A) (hr : r ∈ R) (hn : n < 2 ^ 32) :
    ∃ ch' s', readInode r (fun _ => true) off n s =
        .ok (((((A r).drop off).take n).length, ((A r).drop off).take n), s') ∧
      Sim s' S ch' R A := by
  obtain ⟨ip, hip⟩ := h.exists_inode hr
  have hsz := h.inv.sz_le hr hip
  have hlenA := h.length r hr ip hip
  have hszle := h.inv.size r hr ip hip
  rw [Fat32FileSystem.readInode, bind_of_ok (inode_eq hip)]
  by_cases hoff : off > ip.sz
  · rw [if_pos (Or.inl hoff), List.drop_eq_nil_of_le (by omega)]
    exact ⟨ch, s, by simp, h⟩
  · have hno : ¬ (off > ip.sz ∨ (off + n) % 2 ^ 64 < off) := by
      rw [Nat.mod_eq_of_lt (by omega)]
      omega
    rw [if_neg hno]
    set m := if off + n > ip.sz then ip.sz - off else n with hm
    have hmn : m = min n (ip.sz - off) := by
      rw [hm]
      split <;> omega
    obtain ⟨s', hok, hw⟩ := readLoop_spec (w := fun _ => 0) (n := m) [] (m + 1) 0 off
      h.inv hr hip (Nat.zero_le _) (by omega) (by omega)
    have hbytes : ((A r).drop off).take n =
        (List.range m).map fun j => fileByte s (ch (s.startOf r ip)) (off + j) := by
      refine List.ext_getElem? fun j => ?_
      by_cases hj : j < m
      · rw [List.getElem?_take_of_lt (by omega), List.getElem?_drop,
          h.bytes r hr ip hip (off + j) (by omega), List.getElem?_map,
          List.getElem?_range hj]
        rfl
      · rw [List.getElem?_eq_none (by simp; omega), List.getElem?_eq_none (by simp; omega)]
    have hsame : Function.update ch (s.startOf r ip) (ch (s.startOf r ip) ++ []) = ch := by simp
    refine ⟨ch, s', ?_, ?_⟩
    · rw [hok, hbytes, Nat.sub_zero, List.nil_append, List.length_map, List.length_range,
        toInt32_of_lt (by omega) (by omega)]
    · obtain ⟨k, c, hip'⟩ := hw.node_self
      have hsim := h.wrote (w := []) hr hip (Nat.zero_le _) hw.nothing hip'
      have hA : Function.update A r (splice (A r) 0 []) = A := by simp [splice]
      rw [hsame, hA, List.length_nil, add_zero, Nat.max_zero] at hsim
      exact setInode_self hip' ▸ hsim

end Sim

inductive Call
  | read (r : InodeRef) (off : UInt64) (n : UInt32)
  | write (r : InodeRef) (off : UInt64) (w : List UInt8) (hw : w.length < 2 ^ 32)

namespace Call

def target : Call → InodeRef
  | read r _ _ => r
  | write r _ _ _ => r

def run : Call → FsM (ℤ × List UInt8)
  | read r off n => readInode r (fun _ => true) off.toNat n.toNat
  | write r off w _ => do
    let z ← writeInode r (fun j => w[j]?) off.toNat w.length
    return (z, [])

def spec (A : InodeRef → List UInt8) : Call → (ℤ × List UInt8) × (InodeRef → List UInt8)
  | read r off n =>
    let out := ((A r).drop off.toNat).take n.toNat
    ((out.length, out), A)
  | write r off w _ =>
    if off.toNat ≤ (A r).length then
      ((w.length, []), Function.update A r (splice (A r) off.toNat w))
    else ((-1, []), A)

def HasRoom (s : Fat32FileSystem) : Call → Prop
  | read _ _ _ => True
  | write r off w _ => ∀ ip l, s.inode? r = some ip → off.toNat ≤ ip.sz →
      Chain s.entry endOfCluster (s.startOf r ip) l →
      s.Room ((off.toNat + w.length + 4095) / 4096 - l.length)

theorem step_refines (h : Sim s S ch R A) {c : Call} (hc : c.target ∈ R) (hroom : c.HasRoom s) :
    ∃ ch' s', c.run s = .ok ((c.spec A).1, s') ∧ Sim s' S ch' R (c.spec A).2 := by
  cases c with
  | read r off n => exact h.readInode hc n.toNat_lt
  | write r off w hw =>
    have hr : r ∈ R := hc
    obtain ⟨ip, hip⟩ := h.exists_inode hr
    have hlenA := h.length r hr ip hip
    by_cases hle : off.toNat ≤ ip.sz
    · have hS := (h.inv.table.cursor_of hr hip).1
      obtain ⟨ch', s', hok, hsim⟩ := h.writeInode_accept hr hip hle hw
        (hroom ip _ hip hle (h.inv.table.chains.chain _ hS))
      rw [spec, if_pos (hle.trans_eq hlenA.symm)]
      exact ⟨ch', s', by rw [run, bind_of_ok hok, pure_apply], hsim⟩
    · rw [spec, if_neg (by rw [hlenA]; exact hle)]
      refine ⟨ch, s, ?_, h⟩
      rw [run, bind_of_ok (Sim.writeInode_reject hip (not_le.mp hle) _), pure_apply]

end Call

def runCalls : List Call → FsM (List (ℤ × List UInt8))
  | [] => return []
  | c :: cs => do
    let x ← c.run
    let xs ← runCalls cs
    return x :: xs

def specCalls (A : InodeRef → List UInt8) :
    List Call → List (ℤ × List UInt8) × (InodeRef → List UInt8)
  | [] => ([], A)
  | c :: cs => ((c.spec A).1 :: (specCalls (c.spec A).2 cs).1, (specCalls (c.spec A).2 cs).2)

/-- Every sequence of reads and writes on the files `R` gives the results it gives on
independent byte arrays and leaves the files holding them, as long as each write finds the
free clusters it needs in the state it starts from. -/
theorem runCalls_refines (h : Sim s S ch R A) (calls : List Call)
    (htarget : ∀ c ∈ calls, c.target ∈ R)
    (hroom : ∀ pre c post, calls = pre ++ c :: post → ∀ xs s', runCalls pre s = .ok (xs, s') →
      c.HasRoom s') :
    ∃ ch' s', runCalls calls s = .ok ((specCalls A calls).1, s') ∧
      Sim s' S ch' R (specCalls A calls).2 := by
  induction calls generalizing s ch A with
  | nil => exact ⟨ch, s, rfl, h⟩
  | cons c cs ih =>
    obtain ⟨ch₁, s₁, hok, hsim⟩ := Call.step_refines h (htarget c (by simp))
      (hroom [] c cs rfl [] s rfl)
    obtain ⟨ch', s', hok', hsim'⟩ := ih hsim (fun d hd => htarget d (by simp [hd])) <| by
      intro pre d post he xs s' hpre
      refine hroom (c :: pre) d post (by rw [he]; rfl) ((c.spec A).1 :: xs) s' ?_
      rw [runCalls, bind_of_ok hok, bind_of_ok hpre, pure_apply]
    refine ⟨ch', s', ?_, hsim'⟩
    rw [runCalls, bind_of_ok hok, bind_of_ok hok', pure_apply]
    rfl

theorem filesInv_smallVolume : FilesInv smallVolume {2, 4}
    (fun a => if a = 2 then [2, 3] else [4]) {.pos 59392} := by
  refine ⟨tableInv_smallVolume, ⟨tableInv_smallVolume.geometry, rfl, rfl⟩, fun c h₂ hc => ?_,
    ⟨fun _ _ => rfl, fun _ _ => rfl, fun _ _ _ _ _ h => absurd rfl h⟩, ⟨rfl, rfl⟩, ?_, ?_, ?_⟩
  · have hle : c ≤ 100 := hc.le_count
    refine ⟨h₂, ?_⟩
    change 100 * 512 + (c - 2) * 4096 + 4096 < 2 ^ 31
    omega
  · rintro r rfl ip - c - i hi
    exact absurd hi.valid (by simp [smallVolume])
  · rintro r rfl ip hip
    obtain rfl : freshInode 2 59392 8192 = ip := Option.some.inj hip
    exact le_rfl
  · rintro r rfl ip hip
    obtain rfl : freshInode 2 59392 8192 = ip := Option.some.inj hip
    refine ⟨by decide, 4, Or.inr rfl, ?_, 4, by simp, by decide, by decide⟩
    rintro q rfl iq hiq
    obtain rfl : freshInode 2 59392 8192 = iq := Option.some.inj hiq
    decide

theorem sim_smallVolume : Sim smallVolume {2, 4} (fun a => if a = 2 then [2, 3] else [4])
    {.pos 59392} fun _ => List.replicate 8192 0 := by
  refine ⟨filesInv_smallVolume, ?_, ?_⟩
  · rintro r rfl ip hip
    obtain rfl : freshInode 2 59392 8192 = ip := Option.some.inj hip
    exact List.length_replicate
  · rintro r rfl ip hip x hx
    obtain rfl : freshInode 2 59392 8192 = ip := Option.some.inj hip
    exact List.getElem?_replicate.trans (if_pos hx)

def appendAndRead : List Call :=
  [.write (.pos 59392) 8192 [7, 8, 9] (by decide), .read (.pos 59392) 8191 3]

theorem runCalls_refines_smallVolume : ∃ s', runCalls appendAndRead smallVolume =
    .ok ([(3, []), (3, [0, 7, 8])], s') := by
  have hroom : ∀ pre c post, appendAndRead = pre ++ c :: post → ∀ xs s',
      runCalls pre smallVolume = .ok (xs, s') → c.HasRoom s' := by
    intro pre c post he xs s' hpre
    rcases pre with _ | ⟨d, _ | ⟨e, pre⟩⟩
    · obtain ⟨rfl, -⟩ := List.cons.inj he
      cases hpre
      rintro ip l hip - hl
      obtain rfl : freshInode 2 59392 8192 = ip := Option.some.inj hip
      have hl' : l = [2, 3] := chain_unique hl (tableInv_smallVolume.chains.chain 2 (Or.inl rfl))
      rw [hl']
      exact room_smallVolume
    · obtain ⟨-, he⟩ := List.cons.inj he
      obtain ⟨rfl, -⟩ := List.cons.inj he
      trivial
    · simp [appendAndRead] at he
  obtain ⟨ch', s', hok, -⟩ := runCalls_refines sim_smallVolume appendAndRead
    (by simp [appendAndRead, Call.target]) hroom
  have hspec : (specCalls (fun _ => List.replicate 8192 0) appendAndRead).1 =
      [(3, []), (3, [0, 7, 8])] := by decide +kernel
  exact ⟨s', hspec ▸ hok⟩

/-- A write that extends a file need not return on a volume whose table reaches behind sector
1024, although a cluster is free. -/
theorem writeInode_wideVolume : ¬ ∀ (s : Fat32FileSystem) (r : InodeRef) (ip : Inode)
    (l dir : List ℕ) (off : ℕ) (w : List UInt8),
    s.info.Geometry → (∀ c, 2 ≤ c → c ≤ s.info.clusterCount → s.info.InRange c) →
    (∀ x < (1024 - s.info.reserveSectors) * 512,
      s.fatCache x = s.disk (s.info.reserveSectors * 512 + x)) →
    s.buffers.Idle → s.buffers.Matches s.info → (∀ i c, ¬ s.buffers.Holds i c) →
    s.inode? r = some ip → Chain s.diskEntry endOfCluster (s.startOf r ip) l →
    (∀ c ∈ l, 2 ≤ c ∧ c ≤ s.info.clusterCount) → l[ip.iLogi]? = some ip.iClus →
    ip.sz ≤ 4096 * l.length →
    Chain s.diskEntry endOfCluster s.info.rootDirectoryClusterStart dir → l.Disjoint dir →
    (∃ c ∈ dir, s.info.clusterAddr c ≤ ip.iPos ∧ ip.iPos + 32 ≤ s.info.clusterAddr c + 4096) →
    (∃ f, 2 ≤ f ∧ s.info.InCache f ∧ s.diskEntry f = 0) → off ≤ ip.sz → w.length = 1 →
    ∃ s', writeInode r (fun j => w[j]?) off w.length s = .ok ((w.length : ℤ), s') := by
  intro h
  have hcex : writeInode (.pos 3284992) (fun j => [(1 : UInt8)][j]?) 8192 1 wideVolume =
      .error (.panic "get fat entry") := by rfl
  have hlast : wideVolume.diskEntry 200000 = endOfCluster := by decide +kernel
  have hroot : wideVolume.diskEntry 4 = endOfCluster := by decide +kernel
  obtain ⟨s', hok⟩ := h wideVolume (.pos 3284992) (freshInode 2 3284992 8192) [2, 200000] [4] 8192
    [1] ⟨⟨rfl, by decide, by decide⟩, rfl, rfl⟩ (fun c h₂ hc => ⟨h₂, by
      change c ≤ 300000 at hc
      change 6400 * 512 + (c - 2) * 4096 + 4096 < 2 ^ 31
      omega⟩)
    (fun _ _ => rfl) ⟨fun _ _ => rfl, fun _ _ => rfl, fun _ _ _ _ _ h => absurd rfl h⟩ ⟨rfl, rfl⟩
    (fun i c hi => absurd hi.valid (by simp [wideVolume])) rfl
    ⟨rfl, by decide, by decide +kernel, by decide, hlast⟩ (by simp [wideVolume]) rfl (by decide)
    ⟨rfl, by decide, hroot⟩ (by simp) ⟨4, by simp, by decide, by decide⟩
    ⟨3, by decide, ⟨by decide, by decide⟩, by decide +kernel⟩ (by decide) rfl
  rw [List.length_singleton, hcex] at hok
  cases hok

end StartOS.Fat32FileSystem
