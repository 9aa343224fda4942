import StartOS.Fs.Coherence
import StartOS.Fs.FatEntry
import StartOS.Fs.FsOp
import StartOS.Fs.NameBounds

/-! # Records in the buffer of the caller

`filldir` compares the length of a record with the room that is left and marks the
last record when there is too little. The first record has none before it, and a
buffer of negative length has room for everything.
-/

namespace StartOS

open Hoare

def recLen (n : ℤ) : ℤ := (24 + n + 7) / 8 * 8 % 2 ^ 32

def InBuffer (buf : ℕ) (maxLen : ℤ) (a : ℕ) : Prop := ((a : ℤ) - buf) % 2 ^ 64 < maxLen

/-- The records in what `either_copyout` was given. Each of them is two stores, the mark is one
and the latest. -/
def dirents (out : List (ℕ × List UInt8)) : List (ℕ × List UInt8) :=
  pairs (if out.length % 2 = 1 then out.tail else out)
where
  pairs : List (ℕ × List UInt8) → List (ℕ × List UInt8)
    | _ :: de :: out => de :: pairs out
    | _ => []

def dReclen (de : ℕ × List UInt8) : ℤ := ByteMem.readLE (fun i => de.2.getD i 0) 16 2

/-- All stores are in the buffer, and the result is the length of the records. -/
structure KeepsToBuffer (buf : ℕ) (maxLen r : ℤ) (out : List (ℕ × List UInt8)) : Prop where
  stores : ∀ w ∈ out, ∀ j < w.2.length, InBuffer buf maxLen (w.1 + j)
  sum : r = ((dirents out).map dReclen).sum
  le : r ≤ max 0 maxLen

/-- The address 8, at which the mark of a record that does not exist is stored, is in the
buffer. -/
def MarkInside (buf : ℕ) (maxLen : ℤ) : Prop := ∀ j < 8, InBuffer buf maxLen (8 + j)

/-- There is room for a first record with a name of `n` bytes, or its mark does no harm. -/
def RoomForFirst (buf : ℕ) (maxLen n : ℤ) : Prop :=
  if recLen n ≤ maxLen then 0 ≤ n else MarkInside buf maxLen

/-- Calls of `filldir` up to the first that fails; the first of them is for a name of the given
length. Behind a name whose length is not negative there is none with a negative length. -/
inductive Fills (tmp : ByteMem) : Option ℤ → ReadDirHeader → ReadDirHeader → Prop
  | none (h : ReadDirHeader) : Fills tmp none h h
  | full {h h' : ReadDirHeader} {name : ByteMem} {n : ℤ} {ino type : ℕ}
    (hfull : filldir tmp h name n ino type = (-1, h')) : Fills tmp (some n) h h'
  | record {h h₁ h' : ReadDirHeader} {name : ByteMem} {n : ℤ} {ino type : ℕ} {first : Option ℤ}
    (hrec : filldir tmp h name n ino type = (0, h₁)) (hn : -2 ^ 31 ≤ n) (hlt : n < 2 ^ 15)
    (hsign : 0 ≤ n → ∀ m, first = some m → 0 ≤ m) (hrest : Fills tmp first h₁ h') :
    Fills tmp (some n) h h'

variable {tmp name : ByteMem} {hd h₁ h' : ReadDirHeader} {buf ino type : ℕ} {maxLen n : ℤ}
  {first : Option ℤ} {out : List (ℕ × List UInt8)}

section Calls

theorem recLen_nonneg (n : ℤ) : 0 ≤ recLen n := by
  unfold recLen
  omega

theorem recLen_bounds (hn : 0 ≤ n) (hlt : n < 2 ^ 15) :
    24 + n ≤ recLen n ∧ recLen n < 2 ^ 16 := by
  unfold recLen
  omega

theorem filldir_full (hfull : hd.free % 2 ^ 32 < recLen n) :
    filldir tmp hd name n ino type =
      (-1, { hd with out := ((hd.lastDirent + 8) % 2 ^ 64, List.replicate 8 0) :: hd.out }) := by
  have hlen := recLen_nonneg n
  unfold recLen at hfull hlen
  unfold filldir
  dsimp only
  rw [if_pos (by omega)]

theorem filldir_record (hroom : recLen n ≤ hd.free % 2 ^ 32) : ∃ buf de,
    buf = ((hd.direntData + hd.used) % 2 ^ 64).toNat ∧
    de = linuxDirent tmp ino ((buf + (recLen n).toNat) % 2 ^ 64) (recLen n).toNat type ∧
    filldir tmp hd name n ino type = (0, { hd with
      free := toInt32 (hd.free - recLen n)
      used := toInt32 (hd.used + recLen n)
      lastDirent := buf
      out := ((buf + 19) % 2 ^ 64, (List.range (n % 2 ^ 64).toNat).map name) ::
        (buf, (List.range 24).map de) :: hd.out }) := by
  have hlen := recLen_nonneg n
  refine ⟨_, _, rfl, rfl, ?_⟩
  unfold recLen at *
  unfold filldir
  dsimp only
  rw [if_neg (by omega), Int.toNat_of_nonneg hlen]

theorem record_of_filldir (hrec : filldir tmp hd name n ino type = (0, h₁)) :
    recLen n ≤ hd.free % 2 ^ 32 ∧ ∃ buf de,
      buf = ((hd.direntData + hd.used) % 2 ^ 64).toNat ∧
      de = linuxDirent tmp ino ((buf + (recLen n).toNat) % 2 ^ 64) (recLen n).toNat type ∧
      h₁ = { hd with
        free := toInt32 (hd.free - recLen n)
        used := toInt32 (hd.used + recLen n)
        lastDirent := buf
        out := ((buf + 19) % 2 ^ 64, (List.range (n % 2 ^ 64).toNat).map name) ::
          (buf, (List.range 24).map de) :: hd.out } := by
  have hroom : recLen n ≤ hd.free % 2 ^ 32 := by
    by_contra hfull
    rw [filldir_full (not_le.mp hfull)] at hrec
    cases hrec
  obtain ⟨x, de, hx, hde, heq⟩ := filldir_record hroom
  rw [heq] at hrec
  cases hrec
  exact ⟨hroom, x, de, hx, hde, rfl⟩

theorem full_of_filldir (hfull : filldir tmp hd name n ino type = (-1, h₁)) :
    hd.free % 2 ^ 32 < recLen n ∧
      h₁ = { hd with out := ((hd.lastDirent + 8) % 2 ^ 64, List.replicate 8 0) :: hd.out } := by
  have hmark : hd.free % 2 ^ 32 < recLen n := by
    by_contra hroom
    obtain ⟨_, _, _, _, heq⟩ := filldir_record (not_lt.mp hroom)
    rw [heq] at hfull
    cases hfull
  rw [filldir_full hmark] at hfull
  cases hfull
  exact ⟨hmark, rfl⟩

theorem dReclen_linuxDirent {x off reclen : ℕ} (hlt : reclen < 2 ^ 16) :
    dReclen (x, (List.range 24).map (linuxDirent tmp ino off reclen type)) = reclen := by
  have hbytes : ByteMem.readLE (fun i =>
      ((List.range 24).map (linuxDirent tmp ino off reclen type)).getD i 0) 16 2 =
        (linuxDirent tmp ino off reclen type).readLE 16 2 := by
    refine ByteMem.readLE_congr fun i _ hi => ?_
    rw [List.getD_eq_getElem _ _ (by simp; omega), List.getElem_map, List.getElem_range]
  rw [dReclen, hbytes, linuxDirent, ByteMem.readLE_writeLE_disjoint (by omega),
    ByteMem.readLE_writeLE_of_lt (by omega)]

theorem dirents_mark {w : ℕ × List UInt8} (heven : out.length % 2 = 0) :
    dirents (w :: out) = dirents out := by
  rw [dirents, dirents, if_pos (by rw [List.length_cons]; omega), if_neg (by omega), List.tail_cons]

theorem dirents_record {nm de : ℕ × List UInt8} (heven : out.length % 2 = 0) :
    dirents (nm :: de :: out) = de :: dirents out := by
  have hlen : ¬(nm :: de :: out).length % 2 = 1 := by
    simp only [List.length_cons]
    omega
  rw [dirents, dirents, if_neg hlen, if_neg (by omega), dirents.pairs]

end Calls

section Room

/-- Records have been filled one after the other from the begin of the buffer on. -/
structure Within (buf : ℕ) (maxLen : ℤ) (h : ReadDirHeader) : Prop where
  direntData : h.direntData = buf
  room : h.used + h.free = maxLen
  used : 0 ≤ h.used
  free : 0 ≤ h.free
  stores : ∀ w ∈ h.out, ∀ j < w.2.length, InBuffer buf maxLen (w.1 + j)
  sum : h.used = ((dirents h.out).map dReclen).sum
  even : h.out.length % 2 = 0

def HasLast (buf : ℕ) (maxLen : ℤ) (h : ReadDirHeader) : Prop :=
  ∀ j < 8, InBuffer buf maxLen ((h.lastDirent + 8) % 2 ^ 64 + j)

theorem within_start (h0 : 0 ≤ maxLen) : Within buf maxLen ⟨buf, maxLen, 0, 0, []⟩ where
  direntData := rfl
  room := zero_add _
  used := le_rfl
  free := h0
  stores := by simp
  sum := rfl
  even := rfl

theorem inBuffer_of_lt {a : ℕ} {d : ℤ} (ha : (a : ℤ) % 2 ^ 64 = (buf + d) % 2 ^ 64) (h0 : 0 ≤ d)
    (hlt : d < maxLen) : InBuffer buf maxLen a := by
  unfold InBuffer
  omega

theorem Within.record (h : Within buf maxLen hd) (hmax : maxLen < 2 ^ 31) (hn : 0 ≤ n)
    (hlt : n < 2 ^ 15) (hrec : filldir tmp hd name n ino type = (0, h₁)) :
    Within buf maxLen h₁ ∧ HasLast buf maxLen h₁ := by
  have hsum := h.room
  have hused := h.used
  have hfree := h.free
  obtain ⟨hlen, hlen'⟩ := recLen_bounds hn hlt
  obtain ⟨hfits, x, de, hx, hde, rfl⟩ := record_of_filldir hrec
  have hroom : recLen n ≤ hd.free := by omega
  have hx' : (x : ℤ) % 2 ^ 64 = (buf + hd.used) % 2 ^ 64 := by
    rw [hx, h.direntData]
    omega
  rw [toInt32_of_lt (by omega) (by omega), toInt32_of_lt (by omega) (by omega)]
  have hstores : ∀ w ∈ [((x + 19) % 2 ^ 64, (List.range (n % 2 ^ 64).toNat).map name),
      (x, (List.range 24).map de)], ∀ j < w.2.length, InBuffer buf maxLen (w.1 + j) := by
    intro w hw j hj
    simp only [List.mem_cons, List.not_mem_nil, or_false] at hw
    rcases hw with rfl | rfl
    · simp only [List.length_map, List.length_range] at hj
      exact inBuffer_of_lt (d := hd.used + 19 + j) (by push_cast; omega) (by omega) (by omega)
    · simp only [List.length_map, List.length_range] at hj
      exact inBuffer_of_lt (d := hd.used + j) (by push_cast; omega) (by omega) (by omega)
  refine ⟨⟨h.direntData, ?_, ?_, ?_, fun w hw => ?_, ?_, ?_⟩, fun j hj => ?_⟩
  · dsimp only
    omega
  · dsimp only
    omega
  · dsimp only
    omega
  · simp only [List.mem_cons] at hw
    rcases hw with hw | hw | hw
    · exact hstores w (by simp [hw])
    · exact hstores w (by simp [hw])
    · exact h.stores w hw
  · rw [dirents_record h.even, List.map_cons, List.sum_cons, ← h.sum, hde,
      dReclen_linuxDirent (by omega)]
    dsimp only
    omega
  · have := h.even
    simp only [List.length_cons]
    omega
  · exact inBuffer_of_lt (d := hd.used + 8 + j) (by push_cast; omega) (by omega) (by omega)

theorem Within.full (h : Within buf maxLen hd) (hlast : HasLast buf maxLen hd)
    (hfull : filldir tmp hd name n ino type = (-1, h₁)) :
    KeepsToBuffer buf maxLen h₁.used h₁.out := by
  obtain ⟨-, rfl⟩ := full_of_filldir hfull
  refine ⟨fun w hw j hj => ?_, ?_, ?_⟩
  · rcases List.mem_cons.mp hw with rfl | hw
    · exact hlast j (by simpa using hj)
    · exact h.stores w hw j hj
  · rw [dirents_mark h.even]
    exact h.sum
  · have := h.room
    have := h.free
    dsimp only
    omega

theorem Fills.within (hf : Fills tmp first hd h') (hmax : maxLen < 2 ^ 31)
    (h : Within buf maxLen hd) (hlast : HasLast buf maxLen hd) (hsign : ∀ m, first = some m → 0 ≤ m) :
    KeepsToBuffer buf maxLen h'.used h'.out := by
  induction hf with
  | none hd =>
    refine ⟨h.stores, h.sum, ?_⟩
    have := h.room
    have := h.free
    omega
  | full hfull => exact h.full hlast hfull
  | record hrec _ hlt hnext _ ih =>
    obtain ⟨h₁, hlast₁⟩ := h.record hmax (hsign _ rfl) hlt hrec
    exact ih h₁ hlast₁ (hnext (hsign _ rfl))

theorem filldir_mem_out {w : ℕ × List UInt8} {r : ℤ} (hw : w ∈ hd.out)
    (hrun : filldir tmp hd name n ino type = (r, h₁)) : w ∈ h₁.out := by
  unfold filldir at hrun
  dsimp only at hrun
  split at hrun
  · cases hrun
    exact List.mem_cons_of_mem _ hw
  · cases hrun
    exact List.mem_cons_of_mem _ (List.mem_cons_of_mem _ hw)

theorem Fills.mem_out (hf : Fills tmp first hd h') {w : ℕ × List UInt8} (hw : w ∈ hd.out) :
    w ∈ h'.out := by
  induction hf with
  | none hd => exact hw
  | full hfull => exact filldir_mem_out hw hfull
  | record hrec _ _ _ _ ih => exact ih (filldir_mem_out hw hrec)

theorem not_inBuffer_of_neg {a : ℕ} (hneg : maxLen < 0) : ¬InBuffer buf maxLen a := by
  unfold InBuffer
  omega

/-- A first record goes wrong when the buffer has a negative length or its name has. -/
theorem not_keeps_of_record (hmax : maxLen < 2 ^ 31) (hn : -2 ^ 31 ≤ n)
    (hwrong : maxLen < 0 ∨ n < 0)
    (hrec : filldir tmp ⟨buf, maxLen, 0, 0, []⟩ name n ino type = (0, h₁))
    (hf : Fills tmp first h₁ h') : ¬KeepsToBuffer buf maxLen h'.used h'.out := by
  intro hkeeps
  obtain ⟨-, x, de, hx, -, rfl⟩ := record_of_filldir hrec
  rcases lt_or_ge maxLen 0 with hneg | hmax0
  · have hbyte := hkeeps.stores (x, (List.range 24).map de) (hf.mem_out (by simp)) 0 (by simp)
    exact not_inBuffer_of_neg hneg hbyte
  · have hneg : n < 0 := hwrong.resolve_left (by omega)
    have hbyte := hkeeps.stores ((x + 19) % 2 ^ 64, (List.range (n % 2 ^ 64).toNat).map name)
      (hf.mem_out (by simp)) (2 ^ 31) (by rw [List.length_map, List.length_range]; omega)
    unfold InBuffer at hbyte
    dsimp only at hbyte hx
    omega

/-- From the header that `ReadDir` begins with, everything depends on the first record. -/
theorem Fills.keeps_iff (hf : Fills tmp first ⟨buf, maxLen, 0, 0, []⟩ h') (hmax : maxLen < 2 ^ 31) :
    KeepsToBuffer buf maxLen h'.used h'.out ↔ ∀ n, first = some n → RoomForFirst buf maxLen n := by
  cases hf with
  | none => exact iff_of_true ⟨by simp, rfl, le_max_left ..⟩ (by simp)
  | @full _ _ name n ino type hfull =>
    obtain ⟨hmark, rfl⟩ := full_of_filldir hfull
    dsimp only at hmark
    simp only [Option.some.injEq, forall_eq', RoomForFirst]
    rw [if_neg (by omega)]
    constructor
    · intro hkeeps j hj
      exact hkeeps.stores (8, List.replicate 8 0) (List.mem_singleton.mpr rfl) j (by simpa using hj)
    · intro hinside
      refine ⟨fun w hw j hj => ?_, rfl, le_max_left ..⟩
      obtain rfl := List.mem_singleton.mp hw
      exact hinside j (by simpa using hj)
  | @record _ _ _ name n ino type first hrec hn hlt hsign hrest =>
    simp only [Option.some.injEq, forall_eq', RoomForFirst]
    obtain ⟨hroom, -⟩ := record_of_filldir hrec
    dsimp only at hroom
    have hlen := recLen_nonneg n
    rcases lt_or_ge maxLen 0 with hneg | hmax0
    · rw [if_neg (by omega)]
      refine iff_of_false (not_keeps_of_record hmax hn (Or.inl hneg) hrec hrest) fun hinside => ?_
      exact not_inBuffer_of_neg hneg (hinside 0 (by norm_num))
    · rw [if_pos (by omega)]
      constructor
      · intro hkeeps
        by_contra hn'
        exact not_keeps_of_record hmax hn (Or.inr (not_le.mp hn')) hrec hrest hkeeps
      · intro hn'
        obtain ⟨h₁, hlast₁⟩ := (within_start hmax0).record hmax hn' hlt hrec
        exact hrest.within hmax h₁ hlast₁ (hsign hn')

end Room

section Listing

theorem filldir_cases (tmp : ByteMem) (hd : ReadDirHeader) (name : ByteMem) (n : ℤ) (ino type : ℕ) :
    ∃ h₁, filldir tmp hd name n ino type = (-1, h₁) ∨ filldir tmp hd name n ino type = (0, h₁) := by
  rcases lt_or_ge (hd.free % 2 ^ 32) (recLen n) with hfull | hroom
  · exact ⟨_, Or.inl (filldir_full hfull)⟩
  · obtain ⟨_, _, _, _, heq⟩ := filldir_record hroom
    exact ⟨_, Or.inr heq⟩

/-- A listing that ends with the records that are made up has no room for all of them. -/
theorem fills_dots_full {k fpOffset fpOffset' : ℕ} (hk : k ≤ 2 ^ 31)
    (hdots : fillDots tmp k fpOffset hd = (false, fpOffset', h₁)) :
    k ≠ 0 ∧ Fills tmp (some (3 - k)) hd h₁ := by
  induction k generalizing fpOffset hd with
  | zero => cases hdots
  | succ k ih =>
    have hlen : (3 : ℤ) - (k + 1 : ℕ) = 2 - k := by
      push_cast
      ring
    rw [fillDots] at hdots
    rw [hlen]
    obtain ⟨h₂, hfull | hrec⟩ := filldir_cases tmp hd (fun i => if i < 2 then 0x2e else 0) (2 - k) 1 4
    · rw [hfull] at hdots
      cases hdots
      exact ⟨Nat.succ_ne_zero k, .full hfull⟩
    · rw [hrec] at hdots
      obtain ⟨hk0, hf⟩ := ih (by omega) hdots
      refine ⟨Nat.succ_ne_zero k, .record hrec (by omega) (by omega) (fun hsign m hm => ?_) hf⟩
      cases hm
      omega

/-- The records that are made up are followed by those of the listing. -/
theorem fills_dots_room {k fpOffset fpOffset' : ℕ} (hk : k ≤ 2 ^ 31)
    (hdots : fillDots tmp k fpOffset hd = (true, fpOffset', h₁))
    (hsign : ∀ m, first = some m → 0 ≤ m) (hf : Fills tmp first h₁ h') :
    Fills tmp (if k = 0 then first else some (3 - k)) hd h' := by
  induction k generalizing fpOffset hd with
  | zero =>
    cases hdots
    exact hf
  | succ k ih =>
    have hlen : (3 : ℤ) - (k + 1 : ℕ) = 2 - k := by
      push_cast
      ring
    rw [fillDots] at hdots
    rw [hlen, if_neg (Nat.succ_ne_zero k)]
    obtain ⟨h₂, hfull | hrec⟩ := filldir_cases tmp hd (fun i => if i < 2 then 0x2e else 0) (2 - k) 1 4
    · rw [hfull] at hdots
      cases hdots
    · rw [hrec] at hdots
      refine .record hrec (by omega) (by omega) (fun _ m hm => ?_) (ih (by omega) hdots)
      split at hm
      · exact hsign m hm
      · cases hm
        omega

end Listing

namespace Fat32FileSystem

/-- The length of the first name that the loop of `ReadDir` finds. -/
def firstName {m : Type → Type} [Monad m] [MonadExceptOf Halt m] (rd : ℕ → m (Option ByteMem)) :
    ℕ → ℕ → ByteMem → m (Option ℕ)
  | 0, _, _ => throw .hang
  | fuel + 1, off, name => do
    match ← rd off with
    | none => return none
    | some entry =>
      if entry 0 = 0 then return none
      else if entry 11 ≠ 0x0f then return some (copysfnLength entry)
      else if entry 0 &&& 0xc0 = 0x40 then
        match copylfn entry (name.fill 0 64 0) with
        | none => throw .fault
        | some name =>
          match ← dirGroup rd ((entry 0 &&& 0xbf).toNat - 1) (off + 32) name 13 with
          | none => return none
          | some (_, _, _, nameLen) => return some nameLen
      else firstName rd fuel (off + 32) name

variable {σ : Type} {rd : ℕ → StateT σ Kernel (Option ByteMem)} {s s' : σ} {off k len : ℕ}

theorem copysfnLength_lt (e : ByteMem) : copysfnLength e < 2 ^ 15 := by
  have hname := blankAt_le e 0 8
  have hext := blankAt_le e 8 3
  rw [copysfnLength]
  split <;> omega

theorem dirGroup_length {g : ℕ × ByteMem × ByteMem × ℕ}
    (hok : dirGroup rd k off name len s = .ok (some g, s')) : g.2.2.2 = len + 13 * k := by
  induction k generalizing off name len s with
  | zero =>
    rw [dirGroup] at hok
    obtain ⟨v, s₁, -, hrest⟩ := bind_eq_ok.mp hok
    cases v with
    | none => cases hrest
    | some e =>
      cases hrest
      rfl
  | succ k ih =>
    rw [dirGroup] at hok
    obtain ⟨v, s₁, -, hrest⟩ := bind_eq_ok.mp hok
    cases v with
    | none => cases hrest
    | some e =>
      dsimp only at hrest
      cases hcopy : copylfn e name with
      | none =>
        rw [hcopy] at hrest
        cases hrest
      | some name' =>
        rw [hcopy] at hrest
        rw [ih hrest]
        ring

theorem nonneg_of_map {first : Option ℕ} {m : ℤ} (hm : first.map Nat.cast = some m) : 0 ≤ m := by
  obtain ⟨k, -, rfl⟩ := Option.map_eq_some_iff.mp hm
  exact Int.natCast_nonneg k

theorem dirLoop_fills {fuel beginOff b : ℕ}
    (hok : dirLoop rd tmp fuel off beginOff name hd s = .ok ((b, h'), s')) :
    ∃ first s₁, firstName rd fuel off name s = .ok (first, s₁) ∧
      Fills tmp (first.map Nat.cast) hd h' := by
  induction fuel generalizing off beginOff name hd s with
  | zero => cases hok
  | succ fuel ih =>
    rw [dirLoop] at hok
    obtain ⟨v, s₁, hread, hrest⟩ := bind_eq_ok.mp hok
    rw [firstName, bind_of_ok hread]
    cases v with
    | none =>
      cases hrest
      exact ⟨none, _, rfl, .none _⟩
    | some e =>
      dsimp only at hrest ⊢
      by_cases h0 : e 0 = 0
      · rw [if_pos h0] at hrest ⊢
        cases hrest
        exact ⟨none, _, rfl, .none _⟩
      rw [if_neg h0] at hrest ⊢
      by_cases hl : e 11 ≠ 0x0f
      · rw [if_pos hl] at hrest ⊢
        refine ⟨some (copysfnLength e), s₁, rfl, ?_⟩
        have hlt := copysfnLength_lt e
        obtain ⟨h₁, hfull | hrec⟩ := filldir_cases tmp hd (copysfn e name) (copysfnLength e)
          (getStartCluster e) (direntType e)
        · rw [hfull] at hrest
          cases hrest
          exact .full hfull
        · rw [hrec] at hrest
          obtain ⟨first, s₂, -, hf⟩ := ih hrest
          exact .record hrec (by omega) (by omega) (fun _ m hm => nonneg_of_map hm) hf
      rw [if_neg hl] at hrest ⊢
      by_cases hs : e 0 &&& 0xc0 = 0x40
      · rw [if_pos hs] at hrest ⊢
        cases hcopy : copylfn e (name.fill 0 64 0) with
        | none =>
          rw [hcopy] at hrest
          cases hrest
        | some name' =>
          rw [hcopy] at hrest
          obtain ⟨g, s₂, hgroup, hrest⟩ := bind_eq_ok.mp hrest
          dsimp only
          rw [bind_of_ok hgroup]
          cases g with
          | none =>
            cases hrest
            exact ⟨none, _, rfl, .none _⟩
          | some g =>
            obtain ⟨next, entry, name'', len⟩ := g
            refine ⟨some len, s₂, rfl, ?_⟩
            have hlen := dirGroup_length hgroup
            have hseq := (e 0 &&& 0xbf).toNat_lt
            dsimp only at hrest hlen
            obtain ⟨h₁, hfull | hrec⟩ := filldir_cases tmp hd name'' len (getStartCluster entry)
              (direntType entry)
            · rw [hfull] at hrest
              cases hrest
              exact .full hfull
            · rw [hrec] at hrest
              obtain ⟨first, s₃, -, hf⟩ := ih hrest
              exact .record hrec (by omega) (by omega) (fun _ m hm => nonneg_of_map hm) hf
      · rw [if_neg hs] at hrest ⊢
        exact ih hrest

/-- The listing of a directory from the offset of a file on begins with a name of `n` bytes. The
root begins with the names it makes up, also at an offset that is negative as an `int`. -/
def FirstRecord (s : Fat32FileSystem) (dir : InodeRef) (fpOffset : ℕ) (n : ℤ) : Prop :=
  ∃ ip, s.inode? dir = some ip ∧
    if inum dir ip = 1 ∧ rootOffset fpOffset < 0 then n = 3 + rootOffset fpOffset
    else ∃ k s', firstName (readDirEntry dir) (ip.sz / 32 + 2) (dirOffset (inum dir ip) fpOffset)
      s.junk s = .ok (some k, s') ∧ n = k

theorem rootOffset_bounds (fpOffset : ℕ) : -2 ^ 31 ≤ rootOffset fpOffset := (toInt32_bounds _).1

/-- What a call of `ReadDir` that returns has filled begins with the first record. -/
theorem readDir_fills {s s' : Fat32FileSystem} {dir : InodeRef} {fpOffset : ℕ} {r : ℤ}
    {off' : ℕ} (hok : readDir dir fpOffset buf maxLen s = .ok ((r, out, off'), s')) :
    ∃ first h', Fills s.junk first ⟨buf, maxLen, 0, 0, []⟩ h' ∧ r = h'.used ∧ out = h'.out ∧
      ∀ n, s.FirstRecord dir fpOffset n ↔ first = some n := by
  rw [readDir, get_bind] at hok
  obtain ⟨ip, s₁, hnode, hrun⟩ := bind_eq_ok.mp hok
  obtain ⟨hip, rfl⟩ := inode_eq_ok hnode
  have hfirst : ∀ n, s₁.FirstRecord dir fpOffset n ↔
      if inum dir ip = 1 ∧ rootOffset fpOffset < 0 then n = 3 + rootOffset fpOffset
      else ∃ k s', firstName (readDirEntry dir) (ip.sz / 32 + 2)
        (dirOffset (inum dir ip) fpOffset) s₁.junk s₁ = .ok (some k, s') ∧ n = k := by
    intro n
    constructor
    · rintro ⟨iq, hiq, h⟩
      rw [hip] at hiq
      cases hiq
      exact h
    · exact fun h => ⟨ip, hip, h⟩
  obtain ⟨k, hk⟩ : ∃ k, k = if inum dir ip = 1 then (-rootOffset fpOffset).toNat else 0 := ⟨_, rfl⟩
  have hlow := rootOffset_bounds fpOffset
  have hk0 : k ≠ 0 ↔ inum dir ip = 1 ∧ rootOffset fpOffset < 0 := by
    rw [hk]
    split <;> omega
  have hstart : dirStart s₁.junk (inum dir ip) fpOffset buf maxLen =
      fillDots s₁.junk k fpOffset ⟨buf, maxLen, 0, 0, []⟩ := by
    rw [hk, dirStart]
    split <;> rfl
  have hmade : ∀ n, k ≠ 0 → (s₁.FirstRecord dir fpOffset n ↔ some (3 - (k : ℤ)) = some n) := by
    intro n hne
    obtain ⟨hroot, hneg⟩ := hk0.mp hne
    rw [hfirst, if_pos ⟨hroot, hneg⟩, hk, if_pos hroot, Option.some.injEq]
    omega
  dsimp only at hrun
  rw [hstart] at hrun
  rcases hdots : fillDots s₁.junk k fpOffset ⟨buf, maxLen, 0, 0, []⟩ with ⟨room, off, h₁⟩
  have hle : k ≤ 2 ^ 31 := by
    rw [hk]
    split <;> omega
  rw [hdots] at hrun
  cases room with
  | false =>
    cases hrun
    obtain ⟨hne, hf⟩ := fills_dots_full hle hdots
    exact ⟨_, h₁, hf, rfl, rfl, fun n => hmade n hne⟩
  | true =>
    dsimp only at hrun
    rw [bind_of_ok (entryFuel_eq hip)] at hrun
    obtain ⟨⟨b, h'⟩, t, hloop, hrest⟩ := bind_eq_ok.mp hrun
    cases hrest
    obtain ⟨first, s₂, hname, hf⟩ := dirLoop_fills hloop
    refine ⟨_, h', fills_dots_room hle hdots (fun _ hm => nonneg_of_map hm) hf, rfl, rfl,
      fun n => ?_⟩
    by_cases hzero : k = 0
    · rw [if_pos hzero, hfirst, if_neg (fun h => hk0.mpr h hzero)]
      obtain rfl : off = fpOffset := by
        rw [hzero, fillDots] at hdots
        cases hdots
        rfl
      rw [hname]
      constructor
      · rintro ⟨j, s', hj, rfl⟩
        cases hj
        rfl
      · intro hn
        obtain ⟨j, rfl, rfl⟩ := Option.map_eq_some_iff.mp hn
        exact ⟨j, s₂, rfl, rfl⟩
    · rw [if_neg hzero]
      exact hmade n hzero

end Fat32FileSystem

namespace DeviceFileSystem

variable {children iter : List DevInodeInfo} {inum fpOffset off' : ℕ} {r : ℤ}

/-- The listing of the devices from the offset of a file on begins with a name of `n` bytes. -/
def FirstRecord (children : List DevInodeInfo) (inum fpOffset : ℕ) (n : ℤ) : Prop :=
  if inum = 1 ∧ fpOffset < 2 then n = fpOffset + 1
  else ∃ info, (children.drop (toInt32 fpOffset - 2).toNat).head? = some info ∧ n = info.name.length

theorem devLoop_fills {off : ℤ} (hrun : devLoop tmp fpOffset iter off hd = (r, out, off')) :
    ∃ h', Fills tmp (iter.head?.map fun info => (info.name.length : ℤ)) hd h' ∧ r = h'.used ∧
      out = h'.out := by
  induction iter generalizing off hd with
  | nil =>
    cases hrun
    exact ⟨hd, .none hd, rfl, rfl⟩
  | cons info iter ih =>
    rw [devLoop] at hrun
    have hlt := info.name_lt
    obtain ⟨h₁, hfull | hrec⟩ := filldir_cases tmp hd (fun i => info.name.getD i 0) info.name.length
      info.inum 8
    · rw [hfull] at hrun
      cases hrun
      exact ⟨h₁, .full hfull, rfl, rfl⟩
    · rw [hrec] at hrun
      obtain ⟨h', hf, hr, hout⟩ := ih hrun
      refine ⟨h', .record hrec (by dsimp only; omega) (by dsimp only; omega) (fun _ m hm => ?_) hf,
        hr, hout⟩
      obtain ⟨info', -, rfl⟩ := Option.map_eq_some_iff.mp hm
      exact Int.natCast_nonneg _

theorem readDir_fills (hrun : readDir tmp children inum fpOffset buf maxLen = (r, out, off')) :
    ∃ first h', Fills tmp first ⟨buf, maxLen, 0, 0, []⟩ h' ∧ r = h'.used ∧ out = h'.out ∧
      ∀ n, FirstRecord children inum fpOffset n ↔ first = some n := by
  obtain ⟨k, hk⟩ : ∃ k, k = if inum = 1 then 2 - fpOffset else 0 := ⟨_, rfl⟩
  have hk0 : k ≠ 0 ↔ inum = 1 ∧ fpOffset < 2 := by
    rw [hk]
    split <;> omega
  have hmade : ∀ n, k ≠ 0 → (FirstRecord children inum fpOffset n ↔ some (3 - (k : ℤ)) = some n) := by
    intro n hne
    obtain ⟨hroot, hlt⟩ := hk0.mp hne
    rw [FirstRecord, if_pos ⟨hroot, hlt⟩, hk, if_pos hroot, Option.some.injEq]
    omega
  rw [readDir, ← hk] at hrun
  rcases hdots : fillDots tmp k fpOffset ⟨buf, maxLen, 0, 0, []⟩ with ⟨room, off, h₁⟩
  have hle : k ≤ 2 ^ 31 := by
    rw [hk]
    split <;> omega
  rw [hdots] at hrun
  cases room with
  | false =>
    cases hrun
    obtain ⟨hne, hf⟩ := fills_dots_full hle hdots
    exact ⟨_, h₁, hf, rfl, rfl, fun n => hmade n hne⟩
  | true =>
    obtain ⟨h', hf, hr, hout⟩ := devLoop_fills hrun
    refine ⟨_, h', fills_dots_room hle hdots (fun m hm => ?_) hf, hr, hout, fun n => ?_⟩
    · obtain ⟨info, -, rfl⟩ := Option.map_eq_some_iff.mp hm
      exact Int.natCast_nonneg _
    · by_cases hzero : k = 0
      · obtain rfl : off = fpOffset := by
          rw [hzero, fillDots] at hdots
          cases hdots
          rfl
        rw [if_pos hzero, FirstRecord, if_neg (fun h => hk0.mpr h hzero), Option.map_eq_some_iff]
        simp only [eq_comm (a := n)]
      · rw [if_neg hzero]
        exact hmade n hzero

end DeviceFileSystem

/-- A listing that returns has stored in the buffer only, and what it returns is the length of the
records, exactly when there is room for its first record: in a directory of the disk and in the
directory of the devices. -/
theorem readDir_keeps_iff (fpOffset buf : ℕ) (maxLen : ℤ) (hmax : maxLen < 2 ^ 31) :
    (∀ (s s' : Fat32FileSystem) dir r out off',
      Fat32FileSystem.readDir dir fpOffset buf maxLen s = .ok ((r, out, off'), s') →
        (KeepsToBuffer buf maxLen r out ↔
          ∀ n, s.FirstRecord dir fpOffset n → RoomForFirst buf maxLen n)) ∧
      ∀ tmp children inum r out off',
        DeviceFileSystem.readDir tmp children inum fpOffset buf maxLen = (r, out, off') →
          (KeepsToBuffer buf maxLen r out ↔
            ∀ n, DeviceFileSystem.FirstRecord children inum fpOffset n →
              RoomForFirst buf maxLen n) := by
  constructor
  · intro s s' dir r out off' hok
    obtain ⟨first, h', hf, rfl, rfl, hfirst⟩ := Fat32FileSystem.readDir_fills hok
    simp only [hfirst]
    exact hf.keeps_iff hmax
  · intro tmp children inum r out off' hrun
    obtain ⟨first, h', hf, rfl, rfl, hfirst⟩ := DeviceFileSystem.readDir_fills hrun
    simp only [hfirst]
    exact hf.keeps_iff hmax

def tty : DevInodeInfo := ⟨[0x74, 0x74, 0x79], 5, by decide⟩

/-- A listing of the devices, and one of the root directory of a disk, into 512 bytes. -/
theorem readDir_keeps_tty :
    (∃ r out off', DeviceFileSystem.readDir (fun _ => 0) [tty] 1 0 4096 512 = (r, out, off') ∧
      KeepsToBuffer 4096 512 r out) ∧
    ∃ r out off' s', Fat32FileSystem.readDir .root 0 4096 512 Fat32FileSystem.oneFile =
      .ok ((r, out, off'), s') ∧ KeepsToBuffer 4096 512 r out := by
  constructor
  · refine ⟨_, _, _, rfl, ((readDir_keeps_iff 0 4096 512 (by norm_num)).2 (fun _ => 0) [tty] 1 _ _ _
      rfl).mpr fun n hn => ?_⟩
    obtain rfl : n = 1 := hn
    rw [RoomForFirst, if_pos (by decide)]
    norm_num
  · cases hrun : Fat32FileSystem.readDir .root 0 4096 512 Fat32FileSystem.oneFile with
    | ok v =>
      obtain ⟨⟨r, out, off'⟩, s'⟩ := v
      refine ⟨r, out, off', s', rfl, ((readDir_keeps_iff 0 4096 512 (by norm_num)).1 _ s' .root r out
        off' hrun).mpr ?_⟩
      rintro n ⟨ip, -, hn⟩
      obtain rfl : n = 1 := hn
      rw [RoomForFirst, if_pos (by decide)]
      norm_num
    | error e =>
      have hreturns : (match Fat32FileSystem.readDir .root 0 4096 512 Fat32FileSystem.oneFile with
          | .ok _ => true
          | .error _ => false) = true := by decide +kernel
      rw [hrun] at hreturns
      cases hreturns

/-- With 16 bytes, and with -1, there is no room for the first record of the devices. In one case
its mark is stored at the address 8, in the other the record behind the end. -/
theorem readDir_leaves_buffer :
    ¬KeepsToBuffer 4096 16 (DeviceFileSystem.readDir (fun _ => 0) [tty] 1 0 4096 16).1
        (DeviceFileSystem.readDir (fun _ => 0) [tty] 1 0 4096 16).2.1 ∧
      ¬KeepsToBuffer 4096 (-1) (DeviceFileSystem.readDir (fun _ => 0) [tty] 1 0 4096 (-1)).1
        (DeviceFileSystem.readDir (fun _ => 0) [tty] 1 0 4096 (-1)).2.1 := by
  constructor
  · intro hkeeps
    have hmark := hkeeps.stores (8, List.replicate 8 0) (by decide) 0 (by decide)
    unfold InBuffer at hmark
    omega
  · intro hkeeps
    have hle := hkeeps.le
    revert hle
    decide

end StartOS
