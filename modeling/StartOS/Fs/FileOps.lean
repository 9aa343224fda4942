import Mathlib.Data.List.GetD
import StartOS.Fs.FileBytes

/-! # Reading and writing a file

The turns of the loops of `ReadInode` and `WriteInode` put together: a write
replaces the bytes of its range, a read returns those of its range, and the
bytes of every other file stay.
-/

namespace StartOS.Fat32FileSystem

open Linked Hoare BufferLayer

variable {s s' s₁ s₂ : Fat32FileSystem} {S : Set ℕ} {ch : ℕ → List ℕ} {R : Set InodeRef}
  {r : InodeRef} {ip : Inode} {ext : List ℕ} {a c d i k n m x off total fuel : ℕ} {w : ℕ → UInt8}

def fileByte (s : Fat32FileSystem) (l : List ℕ) (x : ℕ) : UInt8 :=
  s.disk (s.info.clusterAddr (l.getD (x / 4096) 0) + x % 4096)

/-- The bytes `w 0, …, w (n - 1)` have been written at `off` of the file of `r`, which got the
clusters `ext`; the size in the inode is still the old one. -/
structure Wrote (s : Fat32FileSystem) (S : Set ℕ) (ch : ℕ → List ℕ) (R : Set InodeRef)
    (r : InodeRef) (ip : Inode) (ext : List ℕ) (off n : ℕ) (w : ℕ → UInt8)
    (s' : Fat32FileSystem) : Prop where
  inv : FilesInv s' S (Function.update ch (s.startOf r ip) (ch (s.startOf r ip) ++ ext)) R
  info : s'.info = s.info
  node_self : ∃ k c, s'.inode? r = some { ip with iLogi := k, iClus := c }
  node_other : ∀ q, q ≠ r → s'.inode? q = s.inode? q
  length_le : off + n ≤ 4096 * (ch (s.startOf r ip) ++ ext).length
  bytes : ∀ x, x < off + n ∨ x < 4096 * (ch (s.startOf r ip)).length →
    fileByte s' (ch (s.startOf r ip) ++ ext) x =
      if off ≤ x ∧ x < off + n then w (x - off) else fileByte s (ch (s.startOf r ip)) x
  others : ∀ b ∈ S, b ≠ s.startOf r ip → ∀ x < 4096 * (ch b).length,
    fileByte s' (ch b) x = fileByte s (ch b) x
  room : ∀ m, s'.Room m ↔ s.Room (m + ext.length)

theorem Wrote.refl (h : FilesInv s S ch R) (hip : s.inode? r = some ip)
    (hoff : off ≤ 4096 * (ch (s.startOf r ip)).length) : Wrote s S ch R r ip [] off 0 w s where
  inv := by simpa using h
  info := rfl
  node_self := ⟨ip.iLogi, ip.iClus, hip⟩
  node_other _ _ := rfl
  length_le := by simpa using hoff
  bytes x _ := by rw [if_neg (by omega), List.append_nil]
  others _ _ _ _ _ := rfl
  room _ := Iff.rfl

theorem Wrote.nothing {w' : ℕ → UInt8} (h : Wrote s S ch R r ip ext off 0 w s') :
    Wrote s S ch R r ip ext 0 0 w' s' :=
  { h with
    length_le := by omega
    bytes := fun x hx => by
      have := h.bytes x (by omega)
      rw [if_neg (by omega)] at this
      rw [if_neg (by omega), this] }

theorem Wrote.trans {ip₁ : Inode} {ext₂ : List ℕ} (h₁ : Wrote s S ch R r ip ext off n w s₁)
    (hip₁ : s₁.inode? r = some ip₁)
    (h₂ : Wrote s₁ S (Function.update ch (s.startOf r ip) (ch (s.startOf r ip) ++ ext)) R r ip₁ ext₂
      (off + n) m (fun j => w (n + j)) s₂) :
    Wrote s S ch R r ip (ext ++ ext₂) off (n + m) w s₂ := by
  obtain ⟨k, c, hk⟩ := h₁.node_self
  obtain rfl : ip₁ = { ip with iLogi := k, iClus := c } := by
    rw [hip₁] at hk
    exact Option.some.inj hk
  have hst : s₁.startOf r { ip with iLogi := k, iClus := c } = s.startOf r ip :=
    startOf_of_info h₁.info
  obtain ⟨inv, info, node_self, node_other, length_le, bytes, others, room⟩ := h₂
  rw [hst] at inv length_le bytes others
  rw [Function.update_idem] at inv
  rw [Function.update_self, List.append_assoc] at inv length_le bytes
  refine ⟨inv, info.trans h₁.info, node_self, fun q hq => (node_other q hq).trans
    (h₁.node_other q hq), by rwa [add_assoc] at length_le, fun x hx => ?_, fun b hb hne x hx => ?_,
    fun m' => ?_⟩
  · have hlen : (ch (s.startOf r ip)).length ≤ (ch (s.startOf r ip) ++ ext).length := by simp
    rw [bytes x (by omega)]
    by_cases hin : off + n ≤ x ∧ x < off + n + m
    · rw [if_pos hin, if_pos (by omega)]
      congr 1
      omega
    · rw [if_neg hin, h₁.bytes x (by omega)]
      by_cases hin' : off ≤ x ∧ x < off + n
      · rw [if_pos hin', if_pos (by omega)]
      · rw [if_neg hin', if_neg (by omega)]
  · have := others b hb hne x (by rwa [Function.update_of_ne hne])
    rw [Function.update_of_ne hne] at this
    rw [this, h₁.others b hb hne x hx]
  · rw [room, h₁.room, List.length_append, add_assoc, add_comm ext₂.length]

theorem Turned.disk_of_ne {D : ByteMem} (h : Turned s S ch R r ip ext k c D s') (hc : 2 ≤ c)
    (hd : 2 ≤ d) (hne : d ≠ c) (hx : x < 4096) :
    s'.disk (s.info.clusterAddr d + x) = s.disk (s.info.clusterAddr d + x) :=
  h.disk_other _ fun hin => hne (Fat32Info.InCluster.eq ⟨by omega, by omega⟩ hin hd hc)

/-- A turn that stores bytes in its cluster writes them to the file. -/
theorem Turned.wrote {old : ByteMem} (hinv : FilesInv s S ch R) (hr : r ∈ R)
    (hip : s.inode? r = some ip) (hoff : off ≤ 4096 * (ch (s.startOf r ip)).length)
    (hn : off % 4096 + n ≤ 4096)
    (hres : (ch (s.startOf r ip) ++ ext)[off / 4096]? = some c)
    (hold : off / 4096 < (ch (s.startOf r ip)).length →
      ∀ x < 4096, old x = s.disk (s.info.clusterAddr c + x))
    (h : Turned s S ch R r ip ext (off / 4096) c (old.blit (off % 4096) n w) s') :
    Wrote s S ch R r ip ext off n w s' := by
  set a := s.startOf r ip
  obtain ⟨hS, -⟩ := hinv.table.cursor_of hr hip
  obtain ⟨hlt, hget⟩ := List.getElem?_eq_some_iff.mp hres
  have hself : Function.update ch a (ch a ++ ext) a = ch a ++ ext := Function.update_self ..
  have hch := h.inv.table.chains
  have hc2 : ∀ d ∈ ch a ++ ext, 2 ≤ d := fun d hd => hch.two_le a hS d (by rwa [hself])
  have hnd : (ch a ++ ext).Nodup := hself ▸ (hch.chain a hS).nodup
  have hcm : c ∈ ch a ++ ext := List.mem_of_getElem? hres
  refine ⟨h.inv, h.info, ⟨_, _, (h.node r).trans (if_pos rfl)⟩,
    fun q hq => (h.node q).trans (if_neg hq), ?_, fun x hx => ?_, fun b hb hne x hx => ?_,
    h.room⟩
  · change off + n ≤ 4096 * (ch a ++ ext).length
    omega
  · change x < off + n ∨ x < 4096 * (ch a).length at hx
    simp only [fileByte, h.info]
    by_cases hxk : x / 4096 = off / 4096
    · have hgc : (ch a ++ ext).getD (x / 4096) 0 = c := by
        rw [List.getD_eq_getElem?_getD, hxk, hres]
        rfl
      rw [hgc, h.disk_self _ (Nat.mod_lt _ (by omega))]
      by_cases hin : off ≤ x ∧ x < off + n
      · rw [if_pos hin, ByteMem.blit_of_mem (by omega) (by omega)]
        congr 1
        omega
      · have hk : off / 4096 < (ch a).length := by omega
        have hga : (ch a).getD (x / 4096) 0 = c := by
          rw [List.getD_eq_getElem?_getD, hxk, ← List.getElem?_append_left hk, hres]
          rfl
        rw [if_neg hin, ByteMem.blit_of_not_mem (by omega), hga, hold hk _ (Nat.mod_lt _ (by omega))]
    · have hxl : x / 4096 < (ch a).length := by omega
      have hxl' : x / 4096 < (ch a ++ ext).length := by rw [List.length_append]; omega
      have hg : (ch a ++ ext).getD (x / 4096) 0 = (ch a).getD (x / 4096) 0 := by
        rw [List.getD_eq_getElem?_getD, List.getD_eq_getElem?_getD, List.getElem?_append_left hxl]
      have hg' : (ch a).getD (x / 4096) 0 = (ch a ++ ext)[x / 4096] := by
        rw [← hg, List.getD_eq_getElem _ _ hxl']
      have hne : (ch a).getD (x / 4096) 0 ≠ c := fun he => hxk <| by
        rw [hg', ← hget] at he
        exact (hnd.getElem_inj_iff).mp he
      rw [hg, if_neg (by omega), h.disk_of_ne (hc2 c hcm) ?_ hne (Nat.mod_lt _ (by omega))]
      rw [hg']
      exact hc2 _ (List.getElem_mem _)
  · have hxl : x / 4096 < (ch b).length := by omega
    have hm : (ch b).getD (x / 4096) 0 ∈ ch b := by
      rw [List.getD_eq_getElem _ _ hxl]
      exact List.getElem_mem _
    have hne' : (ch b).getD (x / 4096) 0 ≠ c := fun he => by
      have := hch.disjoint b hb a hS hne
      rw [Function.update_of_ne hne, hself] at this
      exact this (he ▸ hm) hcm
    simp only [fileByte, h.info]
    exact h.disk_of_ne (hc2 c hcm) (hinv.table.chains.two_le b hb _ hm) hne'
      (Nat.mod_lt _ (by omega))

theorem prefixLen_eq {ok : ℕ → Bool} (h : ∀ j < n, ok j = true) : prefixLen ok n = n := by
  induction n generalizing ok with
  | zero => rfl
  | succ n ih => rw [prefixLen, if_pos (h 0 (by omega)), ih fun j hj => h (j + 1) (by omega)]

theorem writeLoop_turn {src : ℕ → Option UInt8} (hbpc : s.info.bytesPerCluster = 4096)
    (hlt : total < n) (hb : bmap r (off / 4096 % 2 ^ 32) s = .ok (c, s₁))
    (hread : bufRead c s₁ = .ok (i, s₂))
    (hsrc : ∀ j < min (n - total) (4096 - off % 4096), (src (total + j)).isSome = true) :
    writeLoop r src n (fuel + 1) total off s =
      writeLoop r src n fuel (total + min (n - total) (4096 - off % 4096))
        (off + min (n - total) (4096 - off % 4096))
        (s₂.release i ((s₂.buffers.bufCache i).data.blit (off % 4096)
          (min (n - total) (4096 - off % 4096)) fun j => (src (total + j)).getD 0)) := by
  have hm := prefixLen_eq hsrc
  rw [writeLoop, if_pos hlt, get_bind]
  simp only [hbpc]
  rw [bind_of_ok hb, bind_of_ok hread, get_bind]
  simp only [hm, lt_irrefl, if_false, modify_bind, bufWrite, bufFree, release]

/-- The loop of `WriteInode` with a readable source and enough free clusters. -/
theorem writeLoop_spec (src : ℕ → Option UInt8) (fuel total : ℕ) (h : FilesInv s S ch R) (hr : r ∈ R)
    (hip : s.inode? r = some ip) (hoff : off ≤ 4096 * (ch (s.startOf r ip)).length)
    (hsrc : ∀ j < n, src j = some (w j)) (htot : total ≤ n) (hfuel : n - total < fuel)
    (hroom : s.Room ((off + (n - total) + 4095) / 4096 - (ch (s.startOf r ip)).length)) :
    ∃ ext s', writeLoop r src n fuel total off s = .ok ((toInt32 n, off + (n - total)), s') ∧
      Wrote s S ch R r ip ext off (n - total) (fun j => w (total + j)) s' := by
  induction fuel generalizing s ch ip total off with
  | zero => omega
  | succ fuel ih =>
    by_cases hlt : total < n
    · set nw := min (n - total) (4096 - off % 4096) with hnw
      have hlen := (h.table.chains.length_le (h.table.cursor_of hr hip).1).2
      have hk32 : off / 4096 % 2 ^ 32 = off / 4096 := Nat.mod_eq_of_lt (by omega)
      obtain ⟨ext, c, s₁, i, s₂, hb, hread, -, hext, hres, hold, hD⟩ :=
        turn_spec (k := off / 4096) h hr hip (by omega) (hroom.mono (by omega))
      have hsome : ∀ j < nw, (src (total + j)).isSome = true := fun j hj => by
        rw [hsrc (total + j) (by omega)]
        rfl
      have hw₁ := Turned.wrote (n := nw) (w := fun j => (src (total + j)).getD 0) h hr hip hoff
        (by omega) hres (fun hk => (hold hk).2) (hD _)
      obtain ⟨k', c', hip'⟩ := hw₁.node_self
      have hst : ∀ t : Fat32FileSystem, t.info = s.info →
          t.startOf r { ip with iLogi := k', iClus := c' } = s.startOf r ip :=
        fun t ht => startOf_of_info ht
      have hlen' := hw₁.length_le
      obtain ⟨ext₂, s', hok, hw₂⟩ := @ih _ _ _ (off + nw) (total + nw) hw₁.inv hip'
        (by rw [hst _ hw₁.info, Function.update_self]; exact hw₁.length_le) (by omega) (by omega)
        (by
          rw [hst _ hw₁.info, Function.update_self, List.length_append]
          rw [hw₁.room, show off + nw + (n - (total + nw)) = off + (n - total) by omega]
          exact hroom.mono (by omega))
      refine ⟨ext ++ ext₂, s', ?_, ?_⟩
      · rw [writeLoop_turn h.geometry.bytesPerCluster hlt (by rw [hk32]; exact hb) hread hsome, hok,
          show off + nw + (n - (total + nw)) = off + (n - total) by omega]
      · have hcongr : Wrote s S ch R r ip ext off nw (fun j => w (total + j)) (s₂.release i
            ((s₂.buffers.bufCache i).data.blit (off % 4096) nw fun j =>
              (src (total + j)).getD 0)) := by
          refine { hw₁ with bytes := fun x hx => (hw₁.bytes x hx).trans ?_ }
          split
          · rename_i hx'
            rw [hsrc (total + (x - off)) (by omega)]
            rfl
          · rfl
        rw [show n - total = nw + (n - (total + nw)) by omega]
        exact hcongr.trans hip' (by simpa only [← add_assoc] using hw₂)
    · obtain rfl : total = n := by omega
      refine ⟨[], s, ?_, ?_⟩
      · rw [writeLoop, if_neg hlt, Nat.sub_self, pure_apply]
        rfl
      · rw [Nat.sub_self]
        exact .refl h hip hoff

/-- The loop of `WriteInode` does not return when there are not enough free clusters. -/
theorem writeLoop_stuck (src : ℕ → Option UInt8) (fuel total : ℕ) (h : FilesInv s S ch R) (hr : r ∈ R)
    (hip : s.inode? r = some ip) (hoff : off ≤ 4096 * (ch (s.startOf r ip)).length)
    (hsrc : ∀ j < n, (src j).isSome = true)
    (hroom : ¬ s.Room ((off + (n - total) + 4095) / 4096 - (ch (s.startOf r ip)).length)) :
    ∃ e, writeLoop r src n fuel total off s = .error e := by
  induction fuel generalizing s ch ip total off with
  | zero => exact ⟨_, rfl⟩
  | succ fuel ih =>
    have hlt : total < n := by
      by_contra hge
      exact hroom (s.room_zero.mono (by omega))
    set nw := min (n - total) (4096 - off % 4096) with hnw
    have hS := (h.table.cursor_of hr hip).1
    have hlen := (h.table.chains.length_le hS).2
    have hk32 : off / 4096 % 2 ^ 32 = off / 4096 := Nat.mod_eq_of_lt (by omega)
    by_cases hturn : s.Room (off / 4096 + 1 - (ch (s.startOf r ip)).length)
    · obtain ⟨ext, c, s₁, i, s₂, hb, hread, -, hext, hres, hold, hD⟩ :=
        turn_spec (k := off / 4096) h hr hip (by omega) hturn
      have hsome : ∀ j < nw, (src (total + j)).isSome = true := fun j hj => hsrc _ (by omega)
      have hw₁ := Turned.wrote (n := nw) (w := fun j => (src (total + j)).getD 0) h hr hip hoff
        (by omega) hres (fun hk => (hold hk).2) (hD _)
      obtain ⟨k', c', hip'⟩ := hw₁.node_self
      have hst : ∀ t : Fat32FileSystem, t.info = s.info →
          t.startOf r { ip with iLogi := k', iClus := c' } = s.startOf r ip :=
        fun t ht => startOf_of_info ht
      have hlen' := hw₁.length_le
      rw [writeLoop_turn h.geometry.bytesPerCluster hlt (by rw [hk32]; exact hb) hread hsome]
      refine ih _ hw₁.inv hip' ?_ ?_
      · rw [hst _ hw₁.info, Function.update_self]
        exact hw₁.length_le
      · rw [hst _ hw₁.info, Function.update_self, List.length_append, hw₁.room,
          show off + nw + (n - (total + nw)) = off + (n - total) by omega]
        exact fun hr' => hroom (hr'.mono (by omega))
    · obtain ⟨⟨e, he⟩, -⟩ := (bmap_cases (off / 4096) h.table.geometry h.table.chains hip hS
        (Or.inr (h.table.cursor_of hr hip).2)).resolve_left (by
          rintro ⟨ext, s', c, hext, hlen', -, -⟩
          refine hturn ⟨ext, ?_, by omega, hext.free⟩
          have := (hext.chains.chain _ hS).nodup
          rw [Function.update_self] at this
          exact (List.nodup_append.mp this).2.1)
      refine ⟨e, ?_⟩
      rw [writeLoop, if_pos hlt, get_bind]
      simp only [h.geometry.bytesPerCluster, hk32]
      exact bind_of_error he

theorem release_self (h : (s.release i (s.buffers.bufCache i).data).disk = s.disk) :
    s.release i (s.buffers.bufCache i).data = { s with buffers := s.buffers.freeBuffer i } := by
  have hset : s.buffers.setBuf i { s.buffers.bufCache i with data := (s.buffers.bufCache i).data } =
      s.buffers := by
    simp only [setBuf, Function.update_eq_self]
  simp only [release, hset] at h ⊢
  rw [h]

theorem readLoop_turn {out : List UInt8} (hbpc : s.info.bytesPerCluster = 4096)
    (hlt : total < n) (hb : bmap r (off / 4096 % 2 ^ 32) s = .ok (c, s₁))
    (hread : bufRead c s₁ = .ok (i, s₂)) :
    readLoop r (fun _ => true) n (fuel + 1) total off out s =
      readLoop r (fun _ => true) n fuel (total + min (n - total) (4096 - off % 4096))
        (off + min (n - total) (4096 - off % 4096))
        (out ++ (List.range (min (n - total) (4096 - off % 4096))).map fun j =>
          (s₂.buffers.bufCache i).data (off % 4096 + j))
        { s₂ with buffers := s₂.buffers.freeBuffer i } := by
  have hm : prefixLen (fun _ => true) (min (n - total) (4096 - off % 4096)) =
      min (n - total) (4096 - off % 4096) := prefixLen_eq fun _ _ => rfl
  rw [readLoop, if_pos hlt, get_bind]
  simp only [hbpc]
  rw [bind_of_ok hb, bind_of_ok hread, get_bind]
  simp only [hm, lt_irrefl, if_false, modify_bind, bufFree]

/-- The loop of `ReadInode` into a kernel buffer, inside the file. -/
theorem readLoop_spec (out : List UInt8) (fuel total off : ℕ) (h : FilesInv s S ch R) (hr : r ∈ R)
    (hip : s.inode? r = some ip) (htot : total ≤ n) (hfuel : n - total < fuel)
    (hoff : off + (n - total) ≤ 4096 * (ch (s.startOf r ip)).length) :
    ∃ s', readLoop r (fun _ => true) n fuel total off out s = .ok ((toInt32 n,
        out ++ (List.range (n - total)).map fun j =>
          fileByte s (ch (s.startOf r ip)) (off + j)), s') ∧
      Wrote s S ch R r ip [] 0 0 w s' := by
  induction fuel generalizing s ch ip total off out with
  | zero => omega
  | succ fuel ih =>
    by_cases hlt : total < n
    · set nr := min (n - total) (4096 - off % 4096) with hnr
      have hlen := (h.table.chains.length_le (h.table.cursor_of hr hip).1).2
      have hk : off / 4096 < (ch (s.startOf r ip)).length := by omega
      have hk32 : off / 4096 % 2 ^ 32 = off / 4096 := Nat.mod_eq_of_lt (by omega)
      obtain ⟨ext, c, s₁, i, s₂, hb, hread, hinfo, hext, hres, hold, hD⟩ :=
        turn_spec (k := off / 4096) h hr hip hk.le
          (s.room_zero.mono (by omega))
      obtain rfl : ext = [] := List.eq_nil_of_length_eq_zero (by omega)
      obtain ⟨hdisk, hdata⟩ := hold hk
      have ht := hD (s₂.buffers.bufCache i).data
      have hw₁ : Wrote s S ch R r ip [] off 0 w _ := Turned.wrote h hr hip (by omega) (by omega) hres
        (fun _ => hdata) (by rw [ByteMem.blit_zero]; exact ht)
      have hrel : (s₂.release i (s₂.buffers.bufCache i).data).disk = s₂.disk := by
        rw [hdisk]
        funext y
        by_cases hy : s.info.InCluster c y
        · obtain ⟨x, rfl⟩ := Nat.exists_eq_add_of_le hy.1
          have hx : x < 4096 := by have := hy.2; omega
          rw [ht.disk_self x hx, hdata x hx]
        · exact ht.disk_other y hy
      rw [release_self hrel] at hw₁
      obtain ⟨k', c', hip'⟩ := hw₁.node_self
      have hst : ∀ t : Fat32FileSystem, t.info = s.info →
          t.startOf r { ip with iLogi := k', iClus := c' } = s.startOf r ip :=
        fun t ht => startOf_of_info ht
      obtain ⟨s', hok, hw₂⟩ := ih (out ++ (List.range nr).map fun j =>
          (s₂.buffers.bufCache i).data (off % 4096 + j)) (total + nr) (off + nr) hw₁.inv hip'
        (by omega) (by omega)
        (by rw [hst _ hw₁.info, Function.update_self, List.append_nil]; omega)
      refine ⟨s', ?_, Wrote.trans (n := 0) (m := 0) hw₁.nothing hip'
        hw₂.nothing⟩
      rw [readLoop_turn h.geometry.bytesPerCluster hlt (by rw [hk32]; exact hb) hread, hok]
      have hthis : ∀ j < nr, (s₂.buffers.bufCache i).data (off % 4096 + j) =
          fileByte s (ch (s.startOf r ip)) (off + j) := by
        intro j hj
        rw [hdata _ (by omega), fileByte, show (off + j) / 4096 = off / 4096 by omega,
          show (off + j) % 4096 = off % 4096 + j by omega, List.getD_eq_getElem?_getD,
          ← List.append_nil (ch _), hres]
        rfl
      have hlater : ∀ j < n - (total + nr), fileByte
          { s₂ with buffers := s₂.buffers.freeBuffer i } (ch (s.startOf r ip)) (off + nr + j) =
          fileByte s (ch (s.startOf r ip)) (off + (nr + j)) := by
        intro j hj
        have := hw₁.bytes (off + nr + j) (by omega)
        rw [if_neg (by omega), List.append_nil] at this
        rw [this, add_assoc]
      rw [hst _ hw₁.info, Function.update_self, List.append_nil,
        show n - total = nr + (n - (total + nr)) by omega, List.range_add, List.map_append,
        List.append_assoc, List.map_map]
      simp only [List.map_congr_left fun j hj => hthis j (List.mem_range.mp hj),
        List.map_congr_left fun j hj => hlater j (List.mem_range.mp hj)]
      rfl
    · obtain rfl : total = n := by omega
      refine ⟨s, ?_, .refl h hip (by omega)⟩
      rw [readLoop, if_neg hlt, Nat.sub_self, pure_apply]
      simp

end StartOS.Fat32FileSystem
