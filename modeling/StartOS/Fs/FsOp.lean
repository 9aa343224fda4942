import StartOS.Fs.DirScan

/-! # File system operations

The calls the rest of the kernel makes, and those among them that change neither
the table nor the volume outside of one file: reads and writes inside a chain,
look-ups whose scan ends inside the chain, and removals that find nothing to
remove.
-/

namespace StartOS

inductive FsOp
  | create (dir : InodeRef) (name : CString) (mode : ℕ)
  | mkdir (dir : InodeRef) (name : CString) (mode : ℕ)
  | lookup (dir : InodeRef) (name : CString)
  | read (r : InodeRef) (dst : ℕ → Bool) (off n : ℕ)
  | write (r : InodeRef) (src : ℕ → Option UInt8) (off n : ℕ)
  | unlink (dir : InodeRef) (name : CString)

namespace Fat32FileSystem

open Linked Hoare BufferLayer

def runOp : FsOp → FsM Unit
  | .create dir name mode => do let _ ← create dir name mode
  | .mkdir dir name mode => do let _ ← mkdir dir name mode
  | .lookup dir name => do let _ ← lookup dir name
  | .read r dst off n => do let _ ← readInode r dst off n
  | .write r src off n => do let _ ← writeInode r src off n
  | .unlink dir name => do let _ ← unlink dir name

variable {s s' : Fat32FileSystem} {r : InodeRef} {ip : Inode} {l : List ℕ} {K : Set ℕ} {off n : ℕ}
  {name : CString}

theorem runOp_eq_ok {α : Type} {m : FsM α} (h : (do let _ ← m : FsM Unit) s = .ok ((), s')) :
    ∃ a, m s = .ok (a, s') := by
  obtain ⟨a, s₁, hm, hok⟩ := bind_eq_ok.mp h
  cases hok
  exact ⟨a, hm⟩

/-- The turns of a scan over a directory, whose size is `(uint_t)-1`. -/
def scanFuel : ℕ := minusOne / 32 + 2

/-- The names `Lookup` answers without looking. -/
def IsDots (name : CString) : Prop :=
  strncmp (fun i => if i = 0 then 0x2e else 0) name.bytes name.strlen = 0 ∨
    strncmp (fun i => if i < 2 then 0x2e else 0) name.bytes name.strlen = 0

/-- Whichever copy of each cluster it sees, the scan of `Lookup` ends inside the chain. -/
def LookupInside (s : Fat32FileSystem) (l : List ℕ) (name : CString) : Prop :=
  ∀ V, Views s l V → ∃ q, lookupScan nextEntry name scanFuel s.junk
    (entriesFrom V 0 (128 * l.length)) = .ok q

/-- Whichever copy of each cluster it sees, the scan of `Unlink` ends inside the chain and finds
nothing, or an entry whose inode is in use. -/
def UnlinkMisses (s : Fat32FileSystem) (l : List ℕ) (name : CString) : Prop :=
  ∀ V, Views s l V → ∃ v L, unlinkScan nextEntry name scanFuel s.junk
    (entriesFrom V 0 (128 * l.length)) = .ok (v, L) ∧
    ∀ g, v = some g → s.inodes (s.posOf l g.off) ≠ none

theorem entryFuel_eq (hip : s.inode? r = some ip) : entryFuel r s = .ok (ip.sz / 32 + 2, s) := by
  rw [entryFuel, bind_of_ok (inode_eq hip)]
  rfl

theorem lookup_dots {v : Option InodeRef} (hd : IsDots name)
    (hok : lookup r name s = .ok (v, s')) : SameCore s s' := by
  rw [lookup] at hok
  by_cases h₁ : strncmp (fun i => if i = 0 then 0x2e else 0) name.bytes name.strlen = 0
  · rw [if_pos h₁] at hok
    exact ((dup_keeps r).bind fun _ => Keeps.pure _) (.refl s) hok
  · rw [if_neg h₁, if_pos (hd.resolve_left h₁)] at hok
    exact ((inode_keeps r).bind fun ip => (dup_keeps _).bind fun _ => Keeps.pure _) (.refl s) hok

theorem Calm.lookup_quiet {v : Option InodeRef} (h : s.Calm K) (hK : ∀ c ∈ K, 2 ≤ c)
    (hon : s.OnChain r ip l) (hsz : ip.sz = minusOne) (hd : ¬ IsDots name)
    (hin : LookupInside s l name) (hok : lookup r name s = .ok (v, s')) :
    s'.Calm K ∧ SameVolume s s' := by
  rw [IsDots, not_or] at hd
  rw [lookup, if_neg hd.1, if_neg hd.2, bind_of_ok (entryFuel_eq hon.node), get_bind, hsz] at hok
  obtain ⟨w, s₁, hscan, hok⟩ := bind_eq_ok.mp hok
  obtain ⟨h₁, V, L, -, -, hoff⟩ := h.scan hK hon hsz hin hscan
  cases w with
  | none =>
    cases hok
    exact ⟨h₁.1.toCalm, h₁.sameVolume⟩
  | some g =>
    obtain ⟨pos, s₂, hpos, hok⟩ := bind_eq_ok.mp hok
    obtain ⟨h₂, -⟩ := h₁.entryPos (hoff g rfl) hpos
    have h₃ : SameCore s₂ s' := ((buildInode_keeps _ _ _).bind fun _ => Keeps.pure _) (.refl s₂) hok
    have h₂' := h₂.sameVolume
    exact ⟨h₂.1.toCalm.of_sameCore h₃, h₃.info.trans h₂'.info, h₃.disk.trans h₂'.disk,
      h₃.fatCache.trans h₂'.fatCache⟩

theorem Calm.unlink_quiet {v : ℤ} (h : s.Calm K) (hK : ∀ c ∈ K, 2 ≤ c) (hon : s.OnChain r ip l)
    (hsz : ip.sz = minusOne) (hin : UnlinkMisses s l name)
    (hok : unlink r name s = .ok (v, s')) : s'.Calm K ∧ SameVolume s s' := by
  rw [unlink, bind_of_ok (entryFuel_eq hon.node), get_bind, hsz] at hok
  obtain ⟨w, s₁, hscan, hok⟩ := bind_eq_ok.mp hok
  obtain ⟨h₁, V, L, hV, hpure, hoff⟩ := h.scan hK hon hsz
    (fun V hV => by obtain ⟨v, L, hv, -⟩ := hin V hV; exact ⟨_, hv⟩) hscan
  cases w with
  | none =>
    cases hok
    exact ⟨h₁.1.toCalm, h₁.sameVolume⟩
  | some g =>
    obtain ⟨pos, s₂, hpos, hok⟩ := bind_eq_ok.mp hok
    obtain ⟨h₂, rfl⟩ := h₁.entryPos (hoff g rfl) hpos
    obtain ⟨v', L', hpure', hused⟩ := hin V hV
    have hw : v' = some g := by
      have : Except.ok (v', L') = (Except.ok (some g, L) : Kernel _) := hpure'.symm.trans hpure
      cases this
      rfl
    have huse : s₂.inodes (s.posOf l g.off) ≠ none := fun he =>
      hused g hw ((h₂.inodes_eq_none hon.node _).mp he)
    obtain ⟨iq, hiq⟩ := Option.ne_none_iff_exists'.mp huse
    have hget : getInode (s.posOf l g.off) s₂ =
        .ok (some (.pos (s.posOf l g.off)), s₂.setInode (.pos (s.posOf l g.off))
          { iq with ref := iq.ref + 1 }) := by
      have hiq' : s₂.inode? (.pos (s.posOf l g.off)) = some iq := hiq
      have hdup : dup (.pos (s.posOf l g.off)) s₂ = .ok (.pos (s.posOf l g.off),
          s₂.setInode (.pos (s.posOf l g.off)) { iq with ref := iq.ref + 1 }) := by
        rw [dup, bind_of_ok (updateInodeWith_eq hiq')]
        rfl
      rw [getInode, get_bind, hiq]
      dsimp only
      rw [bind_of_ok hdup]
      rfl
    rw [bind_of_ok hget] at hok
    have h₃ : SameCore s₂ s' :=
      ((freeInode_keeps _).bind fun _ => Keeps.pure _) (getInode_keeps _ (.refl s₂) hget) hok
    have h₂' := h₂.sameVolume
    exact ⟨h₂.1.toCalm.of_sameCore h₃, h₃.info.trans h₂'.info, h₃.disk.trans h₂'.disk,
      h₃.fatCache.trans h₂'.fatCache⟩

end Fat32FileSystem

end StartOS
