import StartOS.Fs.FatDir
import StartOS.Fs.FileOps
import StartOS.Fs.Session

/-! # Directory operations that may grow the directory

Every part of `Create`, `Lookup` and `Unlink` works on the inode of one
directory, so each keeps the invariant of a session on it. The reach of such a
session is wider than any chain, so no part has to say how far it goes.
-/

namespace StartOS.Fat32FileSystem

open Linked Hoare BufferLayer

variable {s s' : Fat32FileSystem} {n off : ℕ}

section Scan

variable {I : Fat32FileSystem → Prop} {rd : ℕ → FsM (Option ByteMem)} {B : ℕ}
  {short : ByteMem → ByteMem → ByteMem} {same : ByteMem → Bool}

/-- A scan whose reader keeps an invariant and finds no entry behind `B` does so as well. -/
theorem readGroup_ensures (h : ∀ off, Ensures I (rd off) fun v => v ≠ none → off + 32 ≤ B)
    (nlfn n off : ℕ) (tmp : ByteMem) :
    Ensures I (readGroup rd nlfn n off tmp) fun v => ∀ g, v = some g → g.off ≤ B := by
  induction n generalizing off tmp with
  | zero =>
    refine (h off).bind fun v hv => ?_
    cases v with
    | none => exact .throw _
    | some e => exact .pure fun g hg => by cases hg; exact hv (by simp)
  | succ n ih =>
    refine (h off).bind fun v hv => ?_
    cases v with
    | none => exact .pure (by simp)
    | some e =>
      dsimp only
      cases copylfn e tmp with
      | none => exact .throw _
      | some tmp => exact ih _ _

theorem readName_ensures (h : ∀ off, Ensures I (rd off) fun v => v ≠ none → off + 32 ≤ B)
    (off : ℕ) (tmp : ByteMem) (nlfn : ℕ) :
    Ensures I (readName rd short off tmp nlfn) fun v => ∀ g, v = some g → g.off ≤ B := by
  refine (h off).bind fun v hv => ?_
  cases v with
  | none => exact .pure (by simp)
  | some e =>
    have hle : off + 32 ≤ B := hv (by simp)
    refine .ite (.pure (by simp)) (.ite (.pure ?_) (.ite ?_ (.pure ?_)))
    · rintro g ⟨⟩; exact hle
    · cases copylfn e tmp with
      | none => exact .throw _
      | some tmp => exact readGroup_ensures h _ _ _ _
    · rintro g ⟨⟩; exact hle

theorem scanLoop_ensures (h : ∀ off, Ensures I (rd off) fun v => v ≠ none → off + 32 ≤ B)
    (fuel off : ℕ) (tmp : ByteMem) (nlfn : ℕ) :
    Ensures I (scanLoop rd short same fuel off tmp nlfn) fun v => ∀ g, v = some g → g.off ≤ B := by
  induction fuel generalizing off tmp nlfn with
  | zero => exact .throw _
  | succ fuel ih =>
    refine (readName_ensures h off tmp nlfn).bind fun v hv => ?_
    cases v with
    | none => exact .pure (by simp)
    | some g => exact .ite (.pure hv) (ih _ _ _)

end Scan

theorem inode_keeps {I : Fat32FileSystem → Prop} (r : InodeRef) : Keeps I (inode r) := by
  refine Keeps.get.bind fun s => ?_
  cases s.inode? r with
  | none => exact Keeps.throw _
  | some ip => exact Keeps.pure _

theorem entryFuel_keeps {I : Fat32FileSystem → Prop} (r : InodeRef) : Keeps I (entryFuel r) :=
  (inode_keeps r).bind fun _ => Keeps.pure _

namespace Session

variable {p : Session}

/-- The session may grow its file, whatever it reads or writes. -/
structure Wide (p : Session) : Prop where
  reach : 2 ^ 21 < p.reach
  grow : p.grow

theorem Wide.fresh (hw : p.Wide) (h : p.Inv s) : p.Fresh s := by
  obtain ⟨ip, l, hf⟩ := h.file
  have := hf.onChain.length_le
  have := hw.reach
  exact (hf.mode.resolve_left fun hm => by have := hm.2; omega).2

section

variable (hw : p.Wide)
include hw

theorem readInode_keeps (dst : ℕ → Bool) (off n : ℕ) : Keeps p.Inv (readInode p.file dst off n) := by
  intro s q s' h hok
  obtain ⟨ip, hip⟩ := h.exists_inode
  have hsz := h.sz_lt hip
  have := hw.reach
  exact h.readInode hip (fun hle => by omega) hok

theorem readEntry_keeps (off : ℕ) : Keeps p.Inv (readEntry p.file off) :=
  (readInode_keeps hw _ _ _).bind fun _ => Keeps.pure _

theorem readEntry_ensures (off : ℕ) :
    Ensures p.Inv (readEntry p.file off) fun v => v ≠ none → off + 32 ≤ 2 ^ 33 := by
  intro s v s' h hok
  refine ⟨readEntry_keeps hw off h hok, fun hne => ?_⟩
  by_contra hlt
  obtain ⟨ip, hip⟩ := h.exists_inode
  have hsz := h.sz_lt hip
  have hnone : readInode p.file (fun _ => true) off 32 s = .ok ((0, []), s) := by
    rw [readInode, bind_of_ok (inode_eq hip), if_pos (Or.inl (by omega))]
    rfl
  rw [readEntry, bind_of_ok hnone] at hok
  cases hok
  exact hne rfl

theorem bmap_keeps {k : ℕ} (hk : k ≤ 2 ^ 21) : Keeps p.Inv (bmap p.file k) := by
  intro s c s' h hok
  exact (h.bmap (lt_of_le_of_lt hk hw.reach) hk hok).1

theorem findFreeLoop_keeps (n fuel off nfree : ℕ) :
    Keeps p.Inv (findFreeLoop p.file n fuel off nfree) := by
  induction fuel generalizing off nfree with
  | zero => exact Keeps.throw _
  | succ fuel ih =>
    refine (readEntry_keeps hw off).bind fun v => ?_
    cases v with
    | none => exact Keeps.throw _
    | some e => exact Keeps.ite (Keeps.pure _) (ih _ _)

theorem findFreeEntry_keeps (n : ℕ) : Keeps p.Inv (findFreeEntry p.file n) :=
  (entryFuel_keeps _).bind fun _ => findFreeLoop_keeps hw _ _ _ _

theorem allocCluster_keeps : Keeps p.Inv allocCluster := by
  intro s c s' h hok
  rcases allocCluster_cases h.geometry.toFatGeometry with ⟨f, hf, -, he⟩ | ⟨⟨e, he⟩, -⟩
  · rw [he, Except.ok.injEq, Prod.mk.injEq] at hok
    obtain ⟨-, rfl⟩ := hok
    obtain ⟨ip, l, hfile⟩ := h.file
    have hfr := hw.fresh h
    have hrange := h.range f hf.two_le hf.inCache
    have hfl : f ∉ l := fun hm => hfile.onChain.not_free hm hf
    have hfree : ∀ d, (s.claim f).Free d → s.Free d := by
      intro d hd
      have h0 := hd.entry_eq
      rw [entry_claim] at h0
      split at h0
      · exact absurd h0 (by decide)
      · exact ⟨hd.two_le, hd.inCache, h0⟩
    have hdisk : ∀ y, ¬ s.info.InCluster f y → (s.claim f).disk y = s.disk y := fun y hy =>
      foldl_clearCluster_of_not_mem (l := [f]) h.geometry (by simpa using hrange)
        (by simpa using hy) _
    refine ⟨⟨h.geometry, h.range, h.distinct, h.matches', fun i d hd hwd x hx => ?_⟩, h.info,
      fun y hy => ?_, fun v hv => ⟨(h.spared v hv).1, fun hfv => (h.spared v hv).2 (hfree v hfv)⟩,
      ip, l, ?_, hfile.pos, Or.inr ⟨hw.grow, fun i d hd hwd hfd => hfr i d hd hwd (hfree d hfd)⟩,
      hfile.spared⟩
    · refine (h.coherent i d hd hwd x hx).trans (hdisk _ fun hin => hfr i d hd hwd ?_).symm
      have : f = d := hin.eq (d := d) ⟨by omega, by omega⟩ hf.two_le (p.two_le d hwd)
      exact this ▸ hf
    · refine (hdisk y fun hin => ?_).trans (h.low y hy)
      have h₁ := hin.1
      have h₂ : y < s.info.firstDataSector * 512 := hy
      simp only [Fat32Info.clusterAddr] at h₁
      omega
    · refine hfile.onChain.congr rfl (by cases p.file <;> rfl) fun d hd => ?_
      have hne : d ≠ f := fun he => hfl (he ▸ hd)
      rw [entry_claim, if_neg hne]
  · rw [he] at hok
    cases hok

theorem entryPos_keeps (g : Scanned) (hg : g.off ≤ 2 ^ 33) : Keeps p.Inv (entryPos p.file g) := by
  intro s pos s' h hok
  simp only [entryPos, get_bind, h.geometry.bytesPerCluster] at hok
  rw [Nat.mod_eq_of_lt (a := (g.off - 32) / 4096) (by omega)] at hok
  obtain ⟨c, s₁, hb, hok⟩ := bind_eq_ok.mp hok
  rw [get_bind, pure_apply, Except.ok.injEq, Prod.mk.injEq] at hok
  exact hok.2 ▸ bmap_keeps hw (by omega) h hb

theorem writeBytes_keeps (he : p.EntrySpared p.start.info) (data : ByteMem) (off : ℕ)
    (hn : n ≤ 2 ^ 32) : Keeps p.Inv (writeBytes p.file data off n) := by
  intro s q s' h hok
  obtain ⟨ip, hip⟩ := h.exists_inode
  have hsz := h.sz_lt hip
  have := hw.reach
  refine h.writeInode hip (fun hle => by omega) hn (Or.inr (Or.inl ?_)) (h.info ▸ he) hok
  exact prefixLen_eq fun _ _ => rfl

theorem createLoop_keeps (he : p.EntrySpared p.start.info) (name : CString) (checksum : UInt8)
    (lfnNum n seq off : ℕ) :
    Keeps p.Inv (createLoop p.file name checksum lfnNum n seq off) := by
  induction n generalizing seq off with
  | zero => exact Keeps.pure _
  | succ n ih => exact (writeBytes_keeps hw he _ _ (by norm_num)).bind fun _ => ih _ _

theorem markEntryDeleted_keeps (he : p.EntrySpared p.start.info) (n off : ℕ) :
    Keeps p.Inv (markEntryDeleted p.file n off) := by
  induction n generalizing off with
  | zero => exact Keeps.pure _
  | succ n ih =>
    refine (readEntry_keeps hw off).bind fun v => ?_
    cases v with
    | none => exact Keeps.pure _
    | some e =>
      exact (writeBytes_keeps hw he _ _ (by norm_num)).bind fun _ => Keeps.ite (Keeps.pure _) (ih _)

end

theorem fillShortFile_keeps (entry : Stamp → ByteMem) (name : CString) (cluster mode : ℕ) :
    Keeps p.Inv (fillShortFile entry name cluster mode) := by
  have hstamp : Keeps p.Inv stamp := by
    intro s t s' h hok
    cases hok
    exact h.congr rfl rfl rfl rfl (by cases p.file <;> rfl)
  refine hstamp.bind fun t => ?_
  exact Keeps.ite ((Keeps.throw _).bind fun _ => Keeps.pure _) (Keeps.pure _)

theorem create_keeps (hw : p.Wide) (he : p.EntrySpared p.start.info) (name : CString) (mode : ℕ) :
    Keeps p.Inv (create p.file name mode) := by
  refine (findFreeEntry_keeps hw _).bind fun off => ?_
  refine (allocCluster_keeps hw).bind fun cluster => ?_
  refine (fillShortFile_keeps _ _ _ _).bind fun entry => ?_
  refine (writeBytes_keeps hw he _ _ (by norm_num)).bind fun _ => ?_
  refine (readInode_keeps hw _ _ _).bind fun _ => ?_
  have hrest := (createLoop_keeps hw he name (fatChecksum (overlay (fun _ => 0) ‹ℤ × List UInt8›.2))
    ((name.strlen + 12) / 13) ((name.strlen + 12) / 13) 1
    (((off + (name.strlen + 12) / 13 * 32) % 2 ^ 32 + 2 ^ 32 - 32) % 2 ^ 32)).bind
    fun _ => Keeps.pure (0 : ℤ)
  exact Keeps.ite ((Keeps.throw _).bind fun _ => hrest) hrest

end Session

end StartOS.Fat32FileSystem
