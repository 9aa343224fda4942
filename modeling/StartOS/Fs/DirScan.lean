import StartOS.Fs.DirOps

/-! # What a directory scan sees

A scan that stays inside the chain of its directory changes nothing but the
cursor and the buffers. It sees each cluster either as it is on the disk or as a
buffer has it, so its result is that of the same scan over a list of entries.
-/

namespace StartOS.Fat32FileSystem

open Linked Hoare BufferLayer

variable {s s' : Fat32FileSystem} {n off : ℕ} {l : List ℕ} {V : ByteMem}

def Views (s : Fat32FileSystem) (l : List ℕ) (V : ByteMem) : Prop :=
  ∀ j c, l[j]? = some c → (∀ x < 4096, V (4096 * j + x) = s.disk (s.info.clusterAddr c + x)) ∨
    ∃ i, s.buffers.Holds i c ∧ ∀ x < 4096, V (4096 * j + x) = (s.buffers.bufCache i).data x

def entriesFrom (V : ByteMem) (a n : ℕ) : List ByteMem :=
  (List.range' a n).map fun j x => if x < 32 then V (32 * j + x) else 0

/-- Take the next entry of a list, in place of `ReadInode`. -/
def nextEntry (_ : ℕ) : StateT (List ByteMem) Kernel (Option ByteMem) := do
  match ← get with
  | [] => throw .hang
  | entry :: rest =>
    set rest
    return some entry

section Generic

variable {σ : Type} {I : σ → Prop} {R : σ → ℕ → List ByteMem → Prop}
  {rd : ℕ → StateT σ Kernel (Option ByteMem)} {short : ByteMem → ByteMem → ByteMem}
  {same : ByteMem → Bool} {t t' : σ} {v : Option Scanned}

def ReadsFrom (I : σ → Prop) (R : σ → ℕ → List ByteMem → Prop)
    (rd : ℕ → StateT σ Kernel (Option ByteMem)) : Prop :=
  ∀ ⦃t off v t'⦄, I t → (∃ L, R t off L) → (∀ L, R t off L → L ≠ []) → rd off t = .ok (v, t') →
    I t' ∧ ∃ e, v = some e ∧ (∃ L, R t' (off + 32) L) ∧ ∀ L, R t' (off + 32) L → R t off (e :: L)

def Covered (R : σ → ℕ → List ByteMem → Prop) (t : σ) (off : ℕ)
    (P : StateT (List ByteMem) Kernel (Option Scanned)) : Prop :=
  (∃ L, R t off L) ∧ ∀ L, R t off L → ∃ r, P L = .ok r

/-- The result `v` is that of the program over entries that may come next; those it leaves are
the ones that may come next in `t'`. -/
def Follows (R : σ → ℕ → List ByteMem → Prop) (t : σ) (off : ℕ)
    (P : StateT (List ByteMem) Kernel (Option Scanned)) (v : Option Scanned) (t' : σ) : Prop :=
  ∃ off', (∀ g, v = some g → g.off = off') ∧ (∃ L, R t' off' L) ∧
    ∀ L', R t' off' L' → ∃ L, R t off L ∧ P L = .ok (v, L')

variable {f : Option ByteMem → StateT σ Kernel (Option Scanned)}
  {F : Option ByteMem → StateT (List ByteMem) Kernel (Option Scanned)}

theorem ReadsFrom.bind (h : ReadsFrom I R rd) (hI : I t) (hc : Covered R t off (nextEntry off >>= F))
    (hok : (rd off >>= f) t = .ok (v, t'))
    (hf : ∀ e t₁, I t₁ → Covered R t₁ (off + 32) (F (some e)) → f (some e) t₁ = .ok (v, t') →
      I t' ∧ Follows R t₁ (off + 32) (F (some e)) v t') :
    I t' ∧ Follows R t off (nextEntry off >>= F) v t' := by
  obtain ⟨v₁, t₁, hr, hok⟩ := bind_eq_ok.mp hok
  have hne : ∀ L, R t off L → L ≠ [] := by
    rintro L hL rfl
    obtain ⟨r, hr⟩ := hc.2 [] hL
    cases hr
  obtain ⟨h₁, e, rfl, hex, hpush⟩ := h hI hc.1 hne hr
  have hc₁ : Covered R t₁ (off + 32) (F (some e)) := ⟨hex, fun L hL => hc.2 _ (hpush L hL)⟩
  obtain ⟨h', off', hoff, hex', hfol⟩ := hf e t₁ h₁ hc₁ hok
  refine ⟨h', off', hoff, hex', fun L' hL' => ?_⟩
  obtain ⟨L, hL, hF⟩ := hfol L' hL'
  exact ⟨e :: L, hpush L hL, hF⟩

theorem Follows.found {g : Scanned} (hex : ∃ L, R t g.off L) :
    Follows R t g.off (pure (some g)) (some g) t :=
  ⟨g.off, fun _ hg => by cases hg; rfl, hex, fun L hL => ⟨L, hL, rfl⟩⟩

theorem Follows.missed (hex : ∃ L, R t off L) : Follows R t off (pure none) none t :=
  ⟨off, fun _ hg => (by cases hg), hex, fun L hL => ⟨L, hL, rfl⟩⟩

theorem ReadsFrom.readGroup (h : ReadsFrom I R rd) {nlfn : ℕ} {tmp : ByteMem} (hI : I t)
    (hc : Covered R t off (readGroup nextEntry nlfn n off tmp))
    (hok : readGroup rd nlfn n off tmp t = .ok (v, t')) :
    I t' ∧ Follows R t off (readGroup nextEntry nlfn n off tmp) v t' := by
  induction n generalizing t off tmp with
  | zero =>
    refine h.bind hI hc hok fun e t₁ h₁ hc₁ hok₁ => ?_
    cases hok₁
    exact ⟨h₁, .found (g := ⟨off + 32, e, tmp, nlfn⟩) hc₁.1⟩
  | succ n ih =>
    refine h.bind hI hc hok fun e t₁ h₁ hc₁ hok₁ => ?_
    dsimp only at hc₁ hok₁ ⊢
    cases hcopy : copylfn e tmp with
    | none => rw [hcopy] at hok₁; cases hok₁
    | some tmp₁ =>
      rw [hcopy] at hok₁ hc₁
      exact ih h₁ hc₁ hok₁

theorem ReadsFrom.readName (h : ReadsFrom I R rd) {nlfn : ℕ} {tmp : ByteMem} (hI : I t)
    (hc : Covered R t off (readName nextEntry short off tmp nlfn))
    (hok : readName rd short off tmp nlfn t = .ok (v, t')) :
    I t' ∧ Follows R t off (readName nextEntry short off tmp nlfn) v t' := by
  refine h.bind hI hc hok fun e t₁ h₁ hc₁ hok₁ => ?_
  dsimp only at hc₁ hok₁ ⊢
  by_cases h0 : e 0 = 0
  · rw [if_pos h0] at hok₁ ⊢
    cases hok₁
    exact ⟨h₁, .missed hc₁.1⟩
  by_cases hl : e 11 ≠ 0x0f
  · rw [if_neg h0, if_pos hl] at hok₁ ⊢
    cases hok₁
    exact ⟨h₁, .found (g := ⟨off + 32, e, short e tmp, nlfn⟩) hc₁.1⟩
  by_cases hs : e 0 &&& 0xc0 = 0x40
  · rw [if_neg h0, if_neg hl, if_pos hs] at hok₁ hc₁ ⊢
    cases hcopy : copylfn e tmp with
    | none => rw [hcopy] at hok₁; cases hok₁
    | some tmp₁ =>
      rw [hcopy] at hok₁ hc₁
      exact h.readGroup h₁ hc₁ hok₁
  · rw [if_neg h0, if_neg hl, if_neg hs] at hok₁ ⊢
    cases hok₁
    exact ⟨h₁, .found (g := ⟨off + 32, e, tmp, nlfn⟩) hc₁.1⟩

/-- A scan follows the same scan over the entries that may come. -/
theorem ReadsFrom.scanLoop (h : ReadsFrom I R rd) {fuel nlfn : ℕ} {tmp : ByteMem} (hI : I t)
    (hc : Covered R t off (scanLoop nextEntry short same fuel off tmp nlfn))
    (hok : scanLoop rd short same fuel off tmp nlfn t = .ok (v, t')) :
    I t' ∧ Follows R t off (scanLoop nextEntry short same fuel off tmp nlfn) v t' := by
  induction fuel generalizing t off tmp nlfn with
  | zero => cases hok
  | succ fuel ih =>
    obtain ⟨v₁, t₁, hr, hok⟩ := bind_eq_ok.mp hok
    have hcn : Covered R t off (Fat32FileSystem.readName nextEntry short off tmp nlfn) := by
      refine ⟨hc.1, fun L hL => ?_⟩
      obtain ⟨⟨w, L'⟩, hr⟩ := hc.2 L hL
      obtain ⟨a, L₁, ha, -⟩ := bind_eq_ok.mp hr
      exact ⟨_, ha⟩
    obtain ⟨h₁, off₁, hoff, hex, hfol⟩ := h.readName hI hcn hr
    cases v₁ with
    | none =>
      cases hok
      refine ⟨h₁, off₁, fun _ hg => (by cases hg), hex, fun L' hL' => ?_⟩
      obtain ⟨L, hL, hP⟩ := hfol L' hL'
      refine ⟨L, hL, ?_⟩
      rw [Fat32FileSystem.scanLoop, bind_of_ok hP]
      rfl
    | some g =>
      obtain rfl := hoff g rfl
      have hrun : ∀ L L', Fat32FileSystem.readName nextEntry short off tmp nlfn L = .ok (some g, L') →
          Fat32FileSystem.scanLoop nextEntry short same (fuel + 1) off tmp nlfn L =
            (if same g.tmp then pure (some g)
              else Fat32FileSystem.scanLoop nextEntry short same fuel g.off g.tmp g.nlfn) L' := by
        intro L L' hP
        rw [Fat32FileSystem.scanLoop, bind_of_ok hP]
      dsimp only at hok
      by_cases hsame : same g.tmp = true
      · rw [if_pos hsame] at hok
        cases hok
        refine ⟨h₁, g.off, fun _ hg => by cases hg; rfl, hex, fun L' hL' => ?_⟩
        obtain ⟨L, hL, hP⟩ := hfol L' hL'
        exact ⟨L, hL, by rw [hrun L L' hP, if_pos hsame]; rfl⟩
      · rw [if_neg hsame] at hok
        have hc₁ : Covered R t₁ g.off
            (Fat32FileSystem.scanLoop nextEntry short same fuel g.off g.tmp g.nlfn) := by
          refine ⟨hex, fun L' hL' => ?_⟩
          obtain ⟨L, hL, hP⟩ := hfol L' hL'
          obtain ⟨r, hr⟩ := hc.2 L hL
          rw [hrun L L' hP, if_neg hsame] at hr
          exact ⟨r, hr⟩
        obtain ⟨h', off', hoff', hex', hfol'⟩ := ih h₁ hc₁ hok
        refine ⟨h', off', hoff', hex', fun L' hL' => ?_⟩
        obtain ⟨L₁, hL₁, hP₁⟩ := hfol' L' hL'
        obtain ⟨L, hL, hP⟩ := hfol L₁ hL₁
        exact ⟨L, hL, by rw [hrun L L₁ hP, if_neg hsame]; exact hP₁⟩

end Generic

/-! ## Scanning inside the chain -/

/-- The views that a scan can still get from `off` on: of the cluster it is in it has what the
buffer holds, if any. -/
structure Shows (s : Fat32FileSystem) (l : List ℕ) (off : ℕ) (V : ByteMem) : Prop where
  now : ∀ c i, l[off / 4096]? = some c → s.buffers.Holds i c → ∀ x < 4096,
    V (4096 * (off / 4096) + x) = (s.buffers.bufCache i).data x
  later : ∀ j c, off / 4096 ≤ j → l[j]? = some c →
    (∀ x < 4096, V (4096 * j + x) = s.disk (s.info.clusterAddr c + x)) ∨
    ∃ i, s.buffers.Holds i c ∧ ∀ x < 4096, V (4096 * j + x) = (s.buffers.bufCache i).data x

theorem Shows.views (h : Shows s l 0 V) : Views s l V := fun j c hj => h.later j c (Nat.zero_le j) hj

theorem exists_shows (hd : s.buffers.Distinct) (hl : ∀ c ∈ l, c ≠ 0) (off : ℕ) :
    ∃ V, Shows s l off V := by
  classical
  refine ⟨fun y => if h : ∃ i, s.buffers.Holds i (l.getD (y / 4096) 0) then
    (s.buffers.bufCache h.choose).data (y % 4096)
    else s.disk (s.info.clusterAddr (l.getD (y / 4096) 0) + y % 4096), ?_, ?_⟩
  · intro c i hc hi x hx
    have h₁ : (4096 * (off / 4096) + x) / 4096 = off / 4096 := by omega
    have h₂ : (4096 * (off / 4096) + x) % 4096 = x := by omega
    have hex : ∃ i, s.buffers.Holds i c := ⟨i, hi⟩
    simp only [h₁, h₂, List.getD_eq_getElem?_getD, hc, Option.getD_some, dif_pos hex]
    have hch := hex.choose_spec
    have hc0 : (c : ℤ) ≠ 0 := by exact_mod_cast hl c (List.mem_of_getElem? hc)
    rw [hd _ i hch.lt hi.lt (hch.blockno.trans hi.blockno.symm) (by rw [hch.blockno]; exact hc0)]
  · intro j c _ hc
    have h₁ : ∀ x < 4096, (4096 * j + x) / 4096 = j := fun x hx => by omega
    have h₂ : ∀ x < 4096, (4096 * j + x) % 4096 = x := fun x hx => by omega
    by_cases hex : ∃ i, s.buffers.Holds i c
    · refine Or.inr ⟨hex.choose, hex.choose_spec, fun x hx => ?_⟩
      simp only [h₁ x hx, h₂ x hx, List.getD_eq_getElem?_getD, hc, Option.getD_some, dif_pos hex]
    · refine Or.inl fun x hx => ?_
      simp only [h₁ x hx, h₂ x hx, List.getD_eq_getElem?_getD, hc, Option.getD_some, dif_neg hex]

/-- The lists of entries that may come from `off` on. -/
def MayCome (l : List ℕ) (s : Fat32FileSystem) (off : ℕ) (L : List ByteMem) : Prop :=
  off % 32 = 0 ∧ off ≤ 4096 * l.length ∧ ∃ V, Shows s l off V ∧
    L = entriesFrom V (off / 32) (128 * l.length - off / 32)

def quiet (s : Fat32FileSystem) (r : InodeRef) (ip : Inode) (l : List ℕ) (K : Set ℕ)
    (hK : ∀ c ∈ K, 2 ≤ c) : Session :=
  ⟨s, r, ip.iPos, l.length, False, K, ∅, hK⟩

def Moved (s : Fat32FileSystem) (r : InodeRef) (ip : Inode) (l : List ℕ) (t : Fat32FileSystem) :
    Prop :=
  ∃ k c b, t = { s.setInode r { ip with iLogi := k, iClus := c } with buffers := b } ∧
    t.OnChain r { ip with iLogi := k, iClus := c } l

theorem setInode_setInode (s : Fat32FileSystem) (r : InodeRef) (ip iq : Inode) (b : BufferLayer) :
    Fat32FileSystem.setInode { s.setInode r ip with buffers := b } r iq =
      { s.setInode r iq with buffers := b } := by
  cases r with
  | root => rfl
  | pos q => simp only [setInode, Function.update_idem]

theorem readLoop_entry {r : InodeRef} {c : ℕ} {s₁ : Fat32FileSystem} {q : ℤ × List UInt8}
    (hbpc : s.info.bytesPerCluster = 4096) (hmod : off % 4096 + 32 ≤ 4096)
    (hb : bmap r (off / 4096 % 2 ^ 32) s = .ok (c, s₁))
    (hok : readLoop r (fun _ => true) 32 33 0 off [] s = .ok (q, s')) :
    ∃ i s₂, bufRead c s₁ = .ok (i, s₂) ∧
      q = (32, (List.range 32).map fun j => (s₂.buffers.bufCache i).data (off % 4096 + j)) ∧
      s' = { s₂ with buffers := s₂.buffers.freeBuffer i } := by
  cases hread : bufRead c s₁ with
  | error e =>
    rw [readLoop, if_pos (by norm_num), get_bind] at hok
    simp only [hbpc] at hok
    rw [bind_of_ok hb, bind_of_error hread] at hok
    cases hok
  | ok a =>
    obtain ⟨i, s₂⟩ := a
    rw [readLoop_turn hbpc (by norm_num) hb hread] at hok
    have hmin : min (32 - 0) (4096 - off % 4096) = 32 := by omega
    rw [hmin, readLoop, if_neg (by norm_num), pure_apply, Except.ok.injEq, Prod.mk.injEq] at hok
    obtain ⟨rfl, rfl⟩ := hok
    exact ⟨i, s₂, rfl, rfl, rfl⟩

/-- What may come after a read is what might have come before it, with the cluster that has
been read as the buffer now holds it. -/
theorem Shows.back {c i : ℕ} {D : ByteMem} (hc : l[off / 4096]? = some c) (hnd : l.Nodup)
    (hinfo : s'.info = s.info) (hdisk : s'.disk = s.disk) (hstep : BufStep s.buffers c D s'.buffers)
    (hself : s'.buffers.Holds i c)
    (hheld : ∀ j, s.buffers.Holds j c → (s.buffers.bufCache j).data = D)
    (hload : (∃ j, s.buffers.Holds j c) ∨ ∀ x < 4096, D x = s.disk (s.info.clusterAddr c + x))
    (hV : Shows s' l (off + 32) V) :
    Shows s l off (fun y => if y / 4096 = off / 4096 then D (y % 4096) else V y) ∧
      ∀ y, off + 32 ≤ y → (if y / 4096 = off / 4096 then D (y % 4096) else V y) = V y := by
  have hdata : (s'.buffers.bufCache i).data = D := by
    rcases hstep.holds i c hself with ⟨-, h⟩ | ⟨h, -⟩
    · exact h
    · exact absurd rfl h
  have hself' : ∀ x < 4096, (if (4096 * (off / 4096) + x) / 4096 = off / 4096 then
      D ((4096 * (off / 4096) + x) % 4096) else V (4096 * (off / 4096) + x)) = D x := by
    intro x hx
    rw [if_pos (by omega), show (4096 * (off / 4096) + x) % 4096 = x by omega]
  refine ⟨⟨fun c' j hc' hj x hx => ?_, fun j c' hj hc' => ?_⟩, fun y hy => ?_⟩
  · rw [hc] at hc'
    cases hc'
    rw [hself' x hx, hheld j hj]
  · by_cases hjk : j = off / 4096
    · subst hjk
      rw [hc] at hc'
      cases hc'
      rcases hload with ⟨i₀, hi₀⟩ | hload
      · exact Or.inr ⟨i₀, hi₀, fun x hx => by rw [hself' x hx, hheld i₀ hi₀]⟩
      · exact Or.inl fun x hx => by rw [hself' x hx, hload x hx]
    · have hne : ∀ x < 4096, ¬ (4096 * j + x) / 4096 = off / 4096 := fun x hx => by omega
      have hcc : c' ≠ c := by
        rintro rfl
        obtain ⟨h₁, h₂⟩ := List.getElem?_eq_some_iff.mp hc
        obtain ⟨h₃, h₄⟩ := List.getElem?_eq_some_iff.mp hc'
        exact hjk ((hnd.getElem_inj_iff).mp (h₄.trans h₂.symm))
      rcases hV.later j c' (by omega) hc' with h | ⟨i₀, hi₀, h⟩
      · exact Or.inl fun x hx => by rw [if_neg (hne x hx), h x hx, hdisk, hinfo]
      · rcases hstep.holds i₀ c' hi₀ with ⟨he, -⟩ | ⟨-, hi₁, hd⟩
        · exact absurd he hcc
        · exact Or.inr ⟨i₀, hi₁, fun x hx => by rw [if_neg (hne x hx), h x hx, hd]⟩
  · split
    · rename_i hk
      have hk' : (off + 32) / 4096 = off / 4096 := by omega
      have := hV.now c i (by rw [hk']; exact hc) hself (y % 4096) (by omega)
      rw [← hdata, ← this, hk']
      congr 1
      omega
    · rfl

theorem entriesFrom_succ (V : ByteMem) (a n : ℕ) : entriesFrom V a (n + 1) =
    (fun x => if x < 32 then V (32 * a + x) else 0) :: entriesFrom V (a + 1) n := rfl

theorem entriesFrom_congr {V' : ByteMem} {a : ℕ} (h : ∀ y, 32 * a ≤ y → V y = V' y) (n : ℕ) :
    entriesFrom V a n = entriesFrom V' a n := by
  refine List.map_congr_left fun j hj => funext fun x => ?_
  rw [List.mem_range'_1] at hj
  rw [h _ (by omega)]

section Quiet

variable {r : InodeRef} {ip : Inode} {K : Set ℕ} {hK : ∀ c ∈ K, 2 ≤ c}

def Scanning (s : Fat32FileSystem) (r : InodeRef) (ip : Inode) (l : List ℕ) (K : Set ℕ)
    (hK : ∀ c ∈ K, 2 ≤ c) (t : Fat32FileSystem) : Prop :=
  (quiet s r ip l K hK).Inv t ∧ Moved s r ip l t

/-- `ReadInode` of one entry: its 32 bytes come out of one buffer. -/
theorem readEntry_onChain {t t' : Fat32FileSystem} {iq : Inode} {v : Option ByteMem}
    (hg : t.info.Geometry) (hon : t.OnChain r iq l) (hsz : iq.sz = minusOne) (h32 : off % 32 = 0)
    (hk : off / 4096 < l.length) (hok : readEntry r off t = .ok (v, t')) :
    ∃ i t₂, bufRead l[off / 4096]
        (t.setInode r { iq with iLogi := off / 4096, iClus := l[off / 4096] }) = .ok (i, t₂) ∧
      v = some (overlay (fun _ => 0)
        ((List.range 32).map fun j => (t₂.buffers.bufCache i).data (off % 4096 + j))) ∧
      t' = { t₂ with buffers := t₂.buffers.freeBuffer i } := by
  have hlen := hon.length_le
  have hoffsz : off + 32 ≤ iq.sz := by
    rw [hsz, minusOne]
    omega
  obtain ⟨⟨q, out⟩, t₀, hread, hok⟩ := bind_eq_ok.mp hok
  rw [readInode, bind_of_ok (inode_eq hon.node)] at hread
  have hnot : ¬ (off > iq.sz ∨ (off + 32) % 2 ^ 64 < off) := by omega
  have hnot' : ¬ off + 32 > iq.sz := by omega
  simp only [if_neg hnot, if_neg hnot'] at hread
  have hk32 : off / 4096 % 2 ^ 32 = off / 4096 := Nat.mod_eq_of_lt (by omega)
  obtain ⟨i, t₂, hbuf, hq, ht₀⟩ := readLoop_entry hg.bytesPerCluster (by omega)
    (by rw [hk32]; exact hon.bmap_inside hg.toFatGeometry hk) hread
  cases hq
  cases hok
  exact ⟨i, t₂, hbuf, rfl, ht₀⟩

theorem freed_of_read {b₀ b : BufferLayer} {disk : ByteMem} {c i : ℕ} (hd : ReadDone b₀ disk c i b)
    (hdist : b₀.Distinct) :
    BufStep b₀ c (b.bufCache i).data (b.freeBuffer i) ∧ (b.freeBuffer i).Holds i c := by
  constructor
  · refine bufStep_of_read hdist hd ?_ ?_ (fun j hj => ?_) rfl rfl
    · rw [freeBuffer, setBuf_self]
      exact hd.blockno
    · rw [freeBuffer, setBuf_self]
    · rw [freeBuffer, setBuf_of_ne _ _ hj]
  · refine ⟨hd.lt, ?_, ?_⟩
    · rw [freeBuffer, setBuf_self]
      exact hd.valid
    · rw [freeBuffer, setBuf_self]
      exact hd.blockno

theorem held_of_read {b₀ b : BufferLayer} {disk : ByteMem} {c i j : ℕ} (hd : ReadDone b₀ disk c i b)
    (hdist : b₀.Distinct) (hc : 2 ≤ c) (hj : b₀.Holds j c) :
    (b₀.bufCache j).data = (b.bufCache i).data := by
  rcases hd.data with ⟨hi, he⟩ | ⟨hno, -⟩
  · have hji : j = i := hdist j i hj.lt hi.lt (hj.blockno.trans hi.blockno.symm)
      (by rw [hj.blockno]; omega)
    rw [hji, he]
  · exact absurd hj (hno j)

theorem loaded_of_read {b : BufferLayer} {c i : ℕ} (hd : ReadDone s.buffers s.disk c i b)
    (hm : s.buffers.Matches s.info) (hr : s.info.InRange c) : (∃ j, s.buffers.Holds j c) ∨
      ∀ x < 4096, (b.bufCache i).data x = s.disk (s.info.clusterAddr c + x) := by
  rcases hd.data with ⟨hi, -⟩ | ⟨-, old, he⟩
  · exact Or.inl ⟨i, hi⟩
  · refine Or.inr fun x hx => ?_
    have h512 : s.info.clusterAddr c % 512 = 0 := by simp only [Fat32Info.clusterAddr]; omega
    rw [he, offsetOf_eq hm hr, rwDevRead_eq (n := bsize) hr.lt h512 rfl]
    exact if_pos hx

/-- The entry at `off` comes out of the bytes `D` of its cluster, those behind it are as in `V`. -/
theorem entriesFrom_cons {D : ByteMem} {n : ℕ} (h32 : off % 32 = 0) (hlt : off + 32 ≤ 4096 * n)
    (heq : ∀ y, off + 32 ≤ y → (if y / 4096 = off / 4096 then D (y % 4096) else V y) = V y) :
    entriesFrom (fun y => if y / 4096 = off / 4096 then D (y % 4096) else V y) (off / 32)
        (128 * n - off / 32) =
      overlay (fun _ => 0) ((List.range 32).map fun j => D (off % 4096 + j)) ::
        entriesFrom V ((off + 32) / 32) (128 * n - (off + 32) / 32) := by
  have hnum : 128 * n - off / 32 = 128 * n - (off + 32) / 32 + 1 := by omega
  rw [hnum, entriesFrom_succ, show (off + 32) / 32 = off / 32 + 1 by omega,
    entriesFrom_congr (V := fun y => if y / 4096 = off / 4096 then D (y % 4096) else V y)
      fun y hy => heq y (by omega)]
  refine congrArg (· :: _) (funext fun x => ?_)
  by_cases hx : x < 32
  · rw [if_pos hx, if_pos (by omega), overlay, List.getD_eq_getElem _ _ (by simpa using hx)]
    simp only [List.getElem_map, List.getElem_range]
    rw [show (32 * (off / 32) + x) % 4096 = off % 4096 + x by omega]
  · rw [if_neg hx, overlay, List.getD_eq_default _ _ (by simpa using hx)]

theorem readEntry_readsFrom (hsz : ip.sz = minusOne) :
    ReadsFrom (Scanning s r ip l K hK) (MayCome l) (readEntry r) := by
  rintro t off v t' ⟨hinv, k₀, c₀, b₀, hst, hon⟩ ⟨L₀, h32, hle, V₀, hV₀, rfl⟩ hne hok
  have hlt : off + 32 ≤ 4096 * l.length := by
    by_contra hcon
    refine hne _ ⟨h32, hle, V₀, hV₀, rfl⟩ ?_
    rw [show 128 * l.length - off / 32 = 0 by omega]
    rfl
  have hlen := hon.length_le
  have hk : off / 4096 < l.length := by omega
  have hinv' : (quiet s r ip l K hK).Inv t' := by
    obtain ⟨_, t₀, hread, hret⟩ := bind_eq_ok.mp hok
    cases hret
    refine hinv.readInode (p := quiet s r ip l K hK) hon.node (fun _ => ?_) hread
    change off + min 32 (ip.sz - off) ≤ 4096 * l.length
    omega
  obtain ⟨i, t₂, hbuf, rfl, rfl⟩ := readEntry_onChain hinv.geometry hon hsz h32 hk hok
  obtain ⟨hinv₁, huse⟩ := hinv.bmap (p := quiet s r ip l K hK) hk (by omega)
    (hon.bmap_inside hinv.geometry.toFatGeometry hk)
  obtain ⟨b, rfl, hd, -⟩ := hinv₁.bufRead huse hbuf
  have hc : l[off / 4096]? = some l[off / 4096] := List.getElem?_eq_getElem hk
  have hload := loaded_of_read hd hinv₁.matches' huse.inRange
  rw [buffers_setInode, disk_setInode, info_setInode] at hload
  rw [buffers_setInode] at hd
  obtain ⟨hstep, hself⟩ := freed_of_read hd hinv.distinct
  have hon' : (t.setInode r { ip with iLogi := off / 4096, iClus := l[off / 4096] }).OnChain r
      { ip with iLogi := off / 4096, iClus := l[off / 4096] } l :=
    hon.setInode rfl (Or.inl hc) hon.sz_lt
  set t₃ : Fat32FileSystem :=
    { t.setInode r { ip with iLogi := off / 4096, iClus := l[off / 4096] } with
      buffers := b.freeBuffer i }
  refine ⟨⟨hinv', off / 4096, l[off / 4096], b.freeBuffer i, ?_, ?_⟩, _, rfl, ?_, fun L hL => ?_⟩
  · simp only [t₃, hst, setInode_setInode]
  · exact hon'.congr rfl (by cases r <;> rfl) fun _ _ => rfl
  · obtain ⟨V, hV⟩ := exists_shows (s := t₃) (l := l) hstep.distinct
      (fun d hd => by have := hon.chains.two_le _ rfl d hd; omega) (off + 32)
    exact ⟨_, by omega, hlt, V, hV, rfl⟩
  · obtain ⟨-, -, V, hV, rfl⟩ := hL
    have hinfo : t₃.info = t.info := info_setInode t r _
    have hdisk : t₃.disk = t.disk := disk_setInode t r _
    obtain ⟨hback, heq⟩ := Shows.back hc (hon.chains.chain _ rfl).nodup hinfo hdisk hstep hself
      (fun j => held_of_read hd hinv.distinct huse.inRange.two_le) hload hV
    exact ⟨h32, hle, _, hback, (entriesFrom_cons h32 hlt heq).symm⟩

theorem Calm.scanning (h : s.Calm K) (hK : ∀ c ∈ K, 2 ≤ c) (hon : s.OnChain r ip l) :
    Scanning s r ip l K hK s := by
  refine ⟨⟨h, rfl, fun _ _ => rfl, fun w hw => absurd hw (Set.notMem_empty w), ip, l, hon, rfl,
    Or.inl ⟨rfl, le_rfl⟩, fun w hw => absurd hw (Set.notMem_empty w)⟩, ip.iLogi, ip.iClus, s.buffers,
    ?_, hon⟩
  have := hon.node
  cases r with
  | root =>
    cases this
    rfl
  | pos q =>
    have hq : s.inodes q = some ip := this
    simp only [setInode]
    rw [← hq, Function.update_eq_self]

theorem Calm.scan {short : ByteMem → ByteMem → ByteMem} {same : ByteMem → Bool} {fuel : ℕ}
    {tmp : ByteMem} {v : Option Scanned} (h : s.Calm K) (hK : ∀ c ∈ K, 2 ≤ c)
    (hon : s.OnChain r ip l) (hsz : ip.sz = minusOne)
    (hin : ∀ V, Views s l V → ∃ q, scanLoop nextEntry short same fuel 0 tmp 0
      (entriesFrom V 0 (128 * l.length)) = .ok q)
    (hok : scanLoop (readEntry r) short same fuel 0 tmp 0 s = .ok (v, s')) :
    Scanning s r ip l K hK s' ∧ ∃ V L, Views s l V ∧ scanLoop nextEntry short same fuel 0 tmp 0
      (entriesFrom V 0 (128 * l.length)) = .ok (v, L) ∧ ∀ g, v = some g →
      g.off ≤ 4096 * l.length := by
  have hcov : Covered (MayCome l) s 0 (scanLoop nextEntry short same fuel 0 tmp 0) := by
    constructor
    · obtain ⟨V, hV⟩ := exists_shows (l := l) h.distinct
        (fun d hd => by have := hon.chains.two_le _ rfl d hd; omega) 0
      exact ⟨_, rfl, Nat.zero_le _, V, hV, rfl⟩
    · rintro L ⟨-, -, V, hV, rfl⟩
      exact hin V hV.views
  obtain ⟨h', off', hoff, ⟨L', hL'⟩, hfol⟩ := (readEntry_readsFrom (K := K) hsz).scanLoop
    (h.scanning hK hon) hcov hok
  obtain ⟨L, ⟨-, -, V, hV, rfl⟩, hP⟩ := hfol L' hL'
  exact ⟨h', V, L', hV.views, hP, fun g hg => hoff g hg ▸ hL'.2.1⟩

/-- The disk position of the short entry before `off`. -/
def posOf (s : Fat32FileSystem) (l : List ℕ) (off : ℕ) : ℕ :=
  s.firstSectorOfCluster (l.getD ((off - 32) / 4096) 0) * sectorSize % 2 ^ 32 + (off - 32) % 4096

theorem Scanning.entryPos {t t' : Fat32FileSystem} {g : Scanned} {pos : ℕ}
    (h : Scanning s r ip l K hK t) (hg : g.off ≤ 4096 * l.length)
    (hok : entryPos r g t = .ok (pos, t')) : Scanning s r ip l K hK t' ∧ pos = s.posOf l g.off := by
  obtain ⟨hinv, k₀, c₀, b₀, hst, hon⟩ := h
  have hpos := hon.length_pos
  have hlen := hon.length_le
  have hk : (g.off - 32) / 4096 < l.length := by omega
  have hbmap := hon.bmap_inside hinv.geometry.toFatGeometry hk
  simp only [Fat32FileSystem.entryPos, get_bind, hinv.geometry.bytesPerCluster] at hok
  rw [Nat.mod_eq_of_lt (a := (g.off - 32) / 4096) (by omega), bind_of_ok hbmap, get_bind, pure_apply,
    Except.ok.injEq, Prod.mk.injEq] at hok
  obtain ⟨rfl, rfl⟩ := hok
  refine ⟨⟨(hinv.bmap (p := quiet s r ip l K hK) hk (by omega) hbmap).1, (g.off - 32) / 4096,
    l[(g.off - 32) / 4096], b₀, ?_, ?_⟩, ?_⟩
  · simp only [hst, setInode_setInode]
  · exact hon.setInode rfl (Or.inl (List.getElem?_eq_getElem hk)) hon.sz_lt
  · have hinfo : t.info = s.info := hinv.info
    simp only [posOf, firstSectorOfCluster, info_setInode, hinfo]
    rw [List.getD_eq_getElem _ _ hk]

structure SameVolume (s t : Fat32FileSystem) : Prop where
  info : t.info = s.info
  disk : t.disk = s.disk
  fatCache : t.fatCache = s.fatCache

theorem Scanning.sameVolume {t : Fat32FileSystem} (h : Scanning s r ip l K hK t) :
    SameVolume s t := by
  obtain ⟨-, k, c, b, rfl, -⟩ := h
  exact ⟨info_setInode .., disk_setInode .., fatCache_setInode ..⟩

theorem Scanning.inodes_eq_none {t : Fat32FileSystem} (h : Scanning s r ip l K hK t)
    (hip : s.inode? r = some ip) (pos : ℕ) : t.inodes pos = none ↔ s.inodes pos = none := by
  obtain ⟨-, k, c, b, rfl, -⟩ := h
  cases r with
  | root => rfl
  | pos q =>
    have hq : s.inodes q = some ip := hip
    by_cases hpq : pos = q
    · subst hpq
      simp [setInode, hq]
    · simp [setInode, hpq]

end Quiet

/-! ## Inodes in memory -/

structure SameCore (s t : Fat32FileSystem) : Prop extends SameVolume s t where
  buffers : t.buffers = s.buffers

theorem Calm.of_sameCore {K : Set ℕ} (h : s.Calm K) (hs : SameCore s s') : s'.Calm K :=
  h.congr hs.info hs.buffers hs.disk

theorem updateInodeWith_keeps (r : InodeRef) (g : Inode → Inode) :
    Keeps (SameCore s) (updateInodeWith r g) := by
  refine (inode_keeps r).bind fun ip => Keeps.modify fun t h => ?_
  cases r <;> exact ⟨⟨h.info, h.disk, h.fatCache⟩, h.buffers⟩

theorem dup_keeps (r : InodeRef) : Keeps (SameCore s) (dup r) :=
  (updateInodeWith_keeps r _).bind fun _ => Keeps.pure _

theorem getInode_keeps (pos : ℕ) : Keeps (SameCore s) (getInode pos) := by
  refine Keeps.get.bind fun t => ?_
  cases t.inodes pos with
  | none => exact Keeps.pure _
  | some ip => exact (dup_keeps _).bind fun _ => Keeps.pure _

theorem buildInode_keeps (entry : ByteMem) (pos : ℕ) (r : InodeRef) :
    Keeps (SameCore s) (buildInode entry pos r) := by
  refine (getInode_keeps pos).bind fun v => ?_
  cases v with
  | some q => exact Keeps.pure _
  | none =>
    refine (dup_keeps r).bind fun _ => (Keeps.modify fun t h => ?_).bind fun _ => Keeps.pure _
    exact ⟨⟨h.info, h.disk, h.fatCache⟩, h.buffers⟩

theorem freeInode_keeps (r : InodeRef) : Keeps (SameCore s) (freeInode r) := by
  have hdel : Keeps (SameCore s) (deleteInode r) :=
    (inode_keeps r).bind fun ip => Keeps.modify fun t h =>
      ⟨⟨h.info, h.disk, h.fatCache⟩, h.buffers⟩
  refine (inode_keeps r).bind fun ip => ?_
  have hrest := (updateInodeWith_keeps (s := s) r fun ip => { ip with ref := ip.ref - 1 }).bind
    fun _ => Keeps.ite (c := ip.ref - 1 = 0) hdel (Keeps.pure ())
  exact Keeps.ite ((Keeps.throw _).bind fun _ => hrest) hrest

theorem SameCore.refl (s : Fat32FileSystem) : SameCore s s := ⟨⟨rfl, rfl, rfl⟩, rfl⟩

end StartOS.Fat32FileSystem
