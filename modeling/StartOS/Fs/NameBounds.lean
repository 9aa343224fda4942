import StartOS.Fs.ReadDir
import StartOS.Lib.Hoare

/-! # Names inside their arrays

`copylfn` takes the place of its 13 characters from the sequence number on the
disk. Four long entries fit into the 64 bytes of a name, and no scan looks at the
number before it copies.
-/

namespace StartOS.Fat32FileSystem

open Hoare

/-- The entries that the reads from `off` on give, up to where a read gives none or fails. -/
inductive Reads {σ : Type} (rd : ℕ → StateT σ Kernel (Option ByteMem)) :
    σ → ℕ → List ByteMem → Prop
  | ends {t t' off} (h : rd off t = .ok (none, t')) : Reads rd t off []
  | fails {t e off} (h : rd off t = .error e) (he : e ≠ .fault) : Reads rd t off []
  | entry {t t' off e L} (h : rd off t = .ok (some e, t')) (hL : Reads rd t' (off + 32) L) :
    Reads rd t off (e :: L)

def sequenceNo (entry : ByteMem) : ℕ := (entry 0 &&& 0xbf).toNat

def InName (entry : ByteMem) : Prop := 1 ≤ sequenceNo entry ∧ sequenceNo entry ≤ 4

def BeginsGroup (entry : ByteMem) : Prop := entry 11 = 0x0f ∧ entry 0 &&& 0xc0 = 0x40

/-- Up to the end mark, each entry of a group before its short entry has a place. A group has as
many of them as the sequence number of its first says, whatever they are. -/
inductive GroupsFit : List ByteMem → Prop
  | nil : GroupsFit []
  | mark {e L} (h : e 0 = 0) : GroupsFit (e :: L)
  | single {e L} (h : ¬BeginsGroup e) (hL : GroupsFit L) : GroupsFit (e :: L)
  | group {e L} (h : BeginsGroup e) (he : InName e)
    (hin : ∀ e' ∈ L.take (sequenceNo e - 1), InName e')
    (hL : GroupsFit (L.drop (sequenceNo e))) : GroupsFit (e :: L)

/-- No scan of the entries stores outside of the 64 bytes of its name, whatever the name it looks
for and whatever the array held. -/
structure DecodeSafe (L : List ByteMem) : Prop where
  copysfn : ∀ e ∈ L, ∀ dst i, 64 ≤ i → copysfn e dst i = dst i
  lookup : ∀ {σ : Type} {rd : ℕ → StateT σ Kernel (Option ByteMem)} {t : σ}, Reads rd t 0 L →
    ∀ name fuel tmp, lookupScan rd name fuel tmp t ≠ .error .fault
  unlink : ∀ {σ : Type} {rd : ℕ → StateT σ Kernel (Option ByteMem)} {t : σ}, Reads rd t 0 L →
    ∀ name fuel tmp, unlinkScan rd name fuel tmp t ≠ .error .fault
  readDir : ∀ {σ : Type} {rd : ℕ → StateT σ Kernel (Option ByteMem)} {t : σ} {off : ℕ},
    Reads rd t off L → ∀ tmp fuel beginOff name h,
      dirLoop rd tmp fuel off beginOff name h t ≠ .error .fault

def takeEntry (_ : ℕ) : StateT (List ByteMem) Kernel (Option ByteMem) :=
  fun L => .ok (L.head?, L.tail)

variable {L : List ByteMem} {e sfn dst tmp : ByteMem} {n off nlfn fuel i : ℕ}

section Copies

theorem blankAt_le (sfn : ByteMem) (a n : ℕ) : blankAt sfn a n ≤ n := by
  induction n generalizing a with
  | zero => exact Nat.le_refl 0
  | succ n ih =>
    rw [blankAt]
    split
    · exact Nat.zero_le _
    · exact Nat.succ_le_succ (ih (a + 1))

theorem copysfn_outside (hi : 13 ≤ i) : copysfn sfn dst i = dst i := by
  have h₁ := blankAt_le sfn 0 8
  have h₂ := blankAt_le sfn 8 3
  have hbase : (dst.blit 0 (blankAt sfn 0 8) sfn) i = dst i := ByteMem.blit_of_not_mem (by omega)
  rw [copysfn]
  dsimp only
  split
  · exact hbase
  · rw [ByteMem.fill_of_not_mem (by omega), ByteMem.blit_of_not_mem (by omega),
      ByteMem.fill_of_not_mem (by omega), hbase]

theorem copylfn_of_inName (h : InName e) (dst : ByteMem) :
    ∃ tmp, copylfn e dst = some tmp ∧ tmp 64 = dst 64 := by
  obtain ⟨h₁, h₄⟩ := h
  rw [sequenceNo] at h₁ h₄
  rw [copylfn]
  dsimp only
  rw [if_neg (by omega)]
  refine ⟨_, rfl, ?_⟩
  rw [ByteMem.blit_of_not_mem (by omega), ByteMem.blit_of_not_mem (by omega),
    ByteMem.blit_of_not_mem (by omega)]

theorem copylfn_eq_none (h : ¬InName e) : copylfn e dst = none := by
  rw [InName, sequenceNo] at h
  rw [copylfn]
  exact if_pos (by omega)

end Copies

section Safe

variable {σ : Type} {rd : ℕ → StateT σ Kernel (Option ByteMem)}

theorem Reads.read : Triple (fun t => Reads rd t off L) (rd off) (· ≠ .fault) fun v t' =>
    ∀ e, v = some e → ∃ L', L = e :: L' ∧ Reads rd t' (off + 32) L' := by
  intro t ht
  constructor
  · intro e he
    cases ht with
    | ends h => rw [h] at he; cases he
    | fails h hne => rw [h] at he; cases he; exact hne
    | entry h hL => rw [h] at he; cases he
  · rintro v t' hok e rfl
    cases ht with
    | ends h => rw [h] at hok; cases hok
    | fails h hne => rw [h] at hok; cases hok
    | entry h hL =>
      rw [h] at hok
      cases hok
      exact ⟨_, rfl, hL⟩

theorem Reads.bind {α : Type} {f : Option ByteMem → StateT σ Kernel α} {Q : α → σ → Prop}
    (hnone : ∀ t, (∀ e, f none t = .error e → e ≠ .fault) ∧ ∀ v t', f none t = .ok (v, t') → Q v t')
    (hsome : ∀ e L', L = e :: L' →
      Triple (fun t => Reads rd t (off + 32) L') (f (some e)) (· ≠ .fault) Q) :
    Triple (fun t => Reads rd t off L) (rd off >>= f) (· ≠ .fault) Q := by
  apply Reads.read.bind
  rintro (_ | e) t ht
  · exact hnone t
  · obtain ⟨L', hL, hreads⟩ := ht e rfl
    exact hsome e L' hL hreads

theorem pure_safe {α : Type} {a : α} {Q : α → σ → Prop} {t : σ} (h : Q a t) :
    (∀ e, (pure a : StateT σ Kernel α) t = .error e → e ≠ .fault) ∧
      ∀ v t', (pure a : StateT σ Kernel α) t = .ok (v, t') → Q v t' :=
  Triple.pure (P := fun s => s = t) (fun _ hs => hs ▸ h) rfl

theorem readGroup_safe (hin : ∀ e ∈ L.take n, InName e) :
    Triple (fun t => Reads rd t off L) (readGroup rd nlfn n off tmp) (· ≠ .fault) fun v t' =>
      ∀ g, v = some g → Reads rd t' g.off (L.drop (n + 1)) := by
  induction n generalizing off L tmp with
  | zero =>
    apply Reads.bind
    · intro t
      constructor
      · rintro e he
        cases he
        simp
      · rintro v t' hok
        cases hok
    · rintro e L' rfl
      apply Triple.pure
      rintro t ht g hg
      cases hg
      exact ht
  | succ n ih =>
    apply Reads.bind
    · exact fun t => pure_safe fun g hg => by cases hg
    · rintro e L' rfl
      obtain ⟨tmp', hcopy, -⟩ := copylfn_of_inName (hin e (by simp)) tmp
      dsimp only
      rw [hcopy]
      exact ih fun e' he' => hin e' (by simp [he'])

theorem GroupsFit.of_begins (h : GroupsFit (e :: L)) (h0 : e 0 ≠ 0) (hb : BeginsGroup e) :
    InName e ∧ (∀ e' ∈ L.take (sequenceNo e - 1), InName e') ∧
      GroupsFit (L.drop (sequenceNo e - 1 + 1)) := by
  cases h with
  | mark h => exact absurd h h0
  | single h hL => exact absurd hb h
  | group h he hin hL =>
    rw [Nat.sub_add_cancel he.1]
    exact ⟨he, hin, hL⟩

theorem GroupsFit.of_not_begins (h : GroupsFit (e :: L)) (h0 : e 0 ≠ 0) (hb : ¬BeginsGroup e) :
    GroupsFit L := by
  cases h with
  | mark h => exact absurd h h0
  | single h hL => exact hL
  | group h he hin hL => exact absurd h hb

theorem readName_safe {short : ByteMem → ByteMem → ByteMem} (hfit : GroupsFit L) :
    Triple (fun t => Reads rd t off L) (readName rd short off tmp nlfn) (· ≠ .fault) fun v t' =>
      ∀ g, v = some g → ∃ L', GroupsFit L' ∧ Reads rd t' g.off L' := by
  apply Reads.bind
  · exact fun t => pure_safe fun g hg => by cases hg
  · rintro e L' rfl
    dsimp only
    apply Triple.ite
    · intro h0
      exact Triple.pure fun t ht g hg => by cases hg
    intro h0
    apply Triple.ite
    · intro hl
      apply Triple.pure
      rintro t ht g hg
      cases hg
      exact ⟨L', hfit.of_not_begins h0 fun hb => hl hb.1, ht⟩
    intro hl
    apply Triple.ite
    · intro hs
      obtain ⟨he, hin, hrest⟩ := hfit.of_begins h0 ⟨not_not.mp hl, hs⟩
      obtain ⟨tmp', hcopy, -⟩ := copylfn_of_inName he tmp
      rw [hcopy]
      exact (readGroup_safe hin).conseq (fun _ ht => ht) fun v t' hv g hg => ⟨_, hrest, hv g hg⟩
    · intro hs
      apply Triple.pure
      rintro t ht g hg
      cases hg
      exact ⟨L', hfit.of_not_begins h0 fun hb => hs hb.2, ht⟩

theorem scanLoop_safe {short : ByteMem → ByteMem → ByteMem} {same : ByteMem → Bool}
    (hfit : GroupsFit L) : Triple (fun t => Reads rd t off L)
      (scanLoop rd short same fuel off tmp nlfn) (· ≠ .fault) fun _ _ => True := by
  induction fuel generalizing off L tmp nlfn with
  | zero => exact Triple.throw (by simp)
  | succ fuel ih =>
    apply (readName_safe hfit).bind
    rintro (_ | g) t ht
    · exact pure_safe trivial
    · obtain ⟨L', hfit', hreads⟩ := ht g rfl
      exact Triple.ite (P := fun t => Reads rd t g.off L')
        (fun _ => Triple.pure fun _ _ => trivial) (fun _ => ih hfit') hreads

theorem dirGroup_safe {name : ByteMem} {nameLen : ℕ} (hin : ∀ e ∈ L.take n, InName e) :
    Triple (fun t => Reads rd t off L) (dirGroup rd n off name nameLen) (· ≠ .fault) fun v t' =>
      ∀ g, v = some g → Reads rd t' g.1 (L.drop (n + 1)) := by
  induction n generalizing off L name nameLen with
  | zero =>
    apply Reads.bind
    · exact fun t => pure_safe fun g hg => by cases hg
    · rintro e L' rfl
      apply Triple.pure
      rintro t ht g hg
      cases hg
      exact ht
  | succ n ih =>
    apply Reads.bind
    · exact fun t => pure_safe fun g hg => by cases hg
    · rintro e L' rfl
      obtain ⟨tmp', hcopy, -⟩ := copylfn_of_inName (hin e (by simp)) name
      dsimp only
      rw [hcopy]
      exact ih fun e' he' => hin e' (by simp [he'])

theorem dirLoop_safe {name : ByteMem} {beginOff : ℕ} {h : ReadDirHeader} (hfit : GroupsFit L) :
    Triple (fun t => Reads rd t off L) (dirLoop rd tmp fuel off beginOff name h) (· ≠ .fault)
      fun _ _ => True := by
  induction fuel generalizing off L beginOff name h with
  | zero => exact Triple.throw (by simp)
  | succ fuel ih =>
    apply Reads.bind
    · exact fun t => pure_safe trivial
    rintro e L' rfl
    dsimp only
    apply Triple.ite
    · exact fun _ => Triple.pure fun _ _ => trivial
    intro h0
    apply Triple.ite
    · intro hl
      exact Triple.ite (fun _ => Triple.pure fun _ _ => trivial) fun _ =>
        ih (hfit.of_not_begins h0 fun hb => hl hb.1)
    intro hl
    apply Triple.ite
    · intro hs
      obtain ⟨he, hin, hrest⟩ := hfit.of_begins h0 ⟨not_not.mp hl, hs⟩
      obtain ⟨name', hcopy, -⟩ := copylfn_of_inName he (name.fill 0 64 0)
      rw [hcopy]
      apply (dirGroup_safe hin).bind
      rintro (_ | ⟨next, entry, name, nameLen⟩) t ht
      · exact pure_safe trivial
      · exact Triple.ite (P := fun t => Reads rd t next (L'.drop (sequenceNo e - 1 + 1)))
          (fun _ => Triple.pure fun _ _ => trivial) (fun _ => ih hrest) (ht _ rfl)
    · exact fun hs => ih (hfit.of_not_begins h0 fun hb => hs hb.2)

end Safe

section Fault

variable {α : Type} {f : Option ByteMem → StateT (List ByteMem) Kernel α}

@[simp] theorem takeEntry_cons : (takeEntry off >>= f) (e :: L) = f (some e) L := rfl

theorem reads_takeEntry (L : List ByteMem) (off : ℕ) : Reads takeEntry L off L := by
  induction L generalizing off with
  | nil => exact .ends rfl
  | cons e L ih => exact .entry rfl (ih (off + 32))

/-- A group that is read without a fault had places for its entries, and none of them is behind the
name. -/
theorem readGroup_fits (h : readGroup takeEntry nlfn n off tmp L ≠ .error .fault) :
    (∀ e ∈ L.take n, InName e) ∧ (n < L.length → ∃ g,
      readGroup takeEntry nlfn n off tmp L = .ok (some g, L.drop (n + 1)) ∧ g.tmp 64 = tmp 64) := by
  induction n generalizing off L tmp with
  | zero =>
    constructor
    · intro e he
      cases he
    · intro hlen
      cases L with
      | nil => cases hlen
      | cons e L => exact ⟨_, rfl, rfl⟩
  | succ n ih =>
    cases L with
    | nil =>
      constructor
      · intro e he
        cases he
      · intro hlen
        cases hlen
    | cons e L =>
      rw [readGroup, takeEntry_cons] at h ⊢
      by_cases he : InName e
      · obtain ⟨tmp', hcopy, h64⟩ := copylfn_of_inName he tmp
        simp only [hcopy] at h ⊢
        obtain ⟨hin, hrun⟩ := ih h
        constructor
        · intro e' he'
          rw [List.take_succ_cons] at he'
          rcases List.mem_cons.mp he' with rfl | he'
          · exact he
          · exact hin e' he'
        · intro hlen
          obtain ⟨g, hg, hg64⟩ := hrun (Nat.lt_of_succ_lt_succ hlen)
          exact ⟨g, hg, hg64.trans h64⟩
      · simp only [copylfn_eq_none he] at h
        exact absurd rfl h

/-- A scan that never finds its name reaches every group before the end mark. -/
theorem groupsFit_of_scanLoop {same : ByteMem → Bool} (hsame : ∀ tmp, tmp 64 = 0 → same tmp = false)
    (h64 : tmp 64 = 0) (hfuel : L.length < fuel)
    (h : scanLoop takeEntry copysfn same fuel off tmp nlfn L ≠ .error .fault) : GroupsFit L := by
  induction fuel generalizing off L tmp nlfn with
  | zero => cases hfuel
  | succ fuel ih =>
    cases L with
    | nil => exact .nil
    | cons e L =>
      have hlen : L.length < fuel := Nat.lt_of_succ_lt_succ hfuel
      by_cases h0 : e 0 = 0
      · exact .mark h0
      have hnext : ∀ g L', readName takeEntry copysfn off tmp nlfn (e :: L) = .ok (some g, L') →
          g.tmp 64 = 0 →
          scanLoop takeEntry copysfn same fuel g.off g.tmp g.nlfn L' ≠ .error .fault := by
        intro g L' hread hg
        rw [scanLoop, bind_of_ok hread] at h
        simpa only [hsame g.tmp hg, Bool.false_eq_true, if_false] using h
      by_cases hb : BeginsGroup e
      · by_cases he : InName e
        · obtain ⟨tmp', hcopy, hcopy64⟩ := copylfn_of_inName he tmp
          have hread : readName takeEntry copysfn off tmp nlfn (e :: L) =
              readGroup takeEntry (sequenceNo e) (sequenceNo e - 1) (off + 32) tmp' L := by
            rw [readName, takeEntry_cons]
            dsimp only
            rw [if_neg h0, if_neg (not_not.mpr hb.1), if_pos hb.2, hcopy]
            rfl
          have hgroup : readGroup takeEntry (sequenceNo e) (sequenceNo e - 1) (off + 32) tmp' L ≠
              .error .fault := by
            intro hf
            rw [scanLoop, bind_of_error (hread.trans hf)] at h
            exact h rfl
          obtain ⟨hin, hrun⟩ := readGroup_fits hgroup
          refine .group hb he hin ?_
          by_cases hrest : sequenceNo e - 1 < L.length
          · obtain ⟨g, hg, hg64⟩ := hrun hrest
            rw [Nat.sub_add_cancel he.1] at hg
            refine ih (hg64.trans (hcopy64.trans h64)) ?_
              (hnext g _ (hread.trans hg) (hg64.trans (hcopy64.trans h64)))
            rw [List.length_drop]
            omega
          · rw [List.drop_of_length_le (by omega)]
            exact .nil
        · have hread : readName takeEntry copysfn off tmp nlfn (e :: L) = .error .fault := by
            rw [readName, takeEntry_cons]
            dsimp only
            rw [if_neg h0, if_neg (not_not.mpr hb.1), if_pos hb.2, copylfn_eq_none he]
            rfl
          rw [scanLoop, bind_of_error hread] at h
          exact absurd rfl h
      · obtain ⟨g, hg, hg64⟩ : ∃ g, readName takeEntry copysfn off tmp nlfn (e :: L) =
            .ok (some g, L) ∧ g.tmp 64 = 0 := by
          rw [readName, takeEntry_cons]
          dsimp only
          rw [if_neg h0]
          by_cases hl : e 11 = 0x0f
          · rw [if_neg (not_not.mpr hl), if_neg fun hs => hb ⟨hl, hs⟩]
            exact ⟨_, rfl, h64⟩
          · rw [if_pos hl]
            exact ⟨_, rfl, (copysfn_outside (by omega)).trans h64⟩
        exact .single hb (ih hg64 hlen (hnext g L hg hg64))

theorem toLowCase_eq_of_strncasecmp {p q : ByteMem} (h : strncasecmp p q n = 0)
    (hp : ∀ i < n, p i ≠ 0) (hi : i < n) : toLowCase (p i) = toLowCase (q i) := by
  induction n generalizing p q i with
  | zero => cases hi
  | succ n ih =>
    rw [strncasecmp] at h
    split at h
    · rename_i hstop
      rcases hstop with hne | hzero
      · exact absurd h hne
      · exact absurd hzero (hp 0 n.succ_pos)
    · rename_i hgo
      rw [not_or, not_not] at hgo
      cases i with
      | zero => exact UInt8.toNat_inj.mp (by omega)
      | succ i =>
        exact ih (p := fun j => p (j + 1)) (q := fun j => q (j + 1)) h
          (fun j hj => hp (j + 1) (Nat.succ_lt_succ hj)) (Nat.lt_of_succ_lt_succ hi)

def longA : CString where
  bytes i := if i < 65 then 0x61 else 0
  strlen := 65
  nul := rfl
  ne_nul i hi := by simp [hi]

theorem longA_not_same (h : tmp 64 = 0) :
    decide (strncasecmp longA.bytes tmp longA.strlen = 0) = false := by
  rw [decide_eq_false_iff_not]
  intro hcmp
  have hlow := toLowCase_eq_of_strncasecmp hcmp longA.ne_nul (i := 64) (by decide)
  rw [h] at hlow
  exact absurd hlow (by decide)

end Fault

/-- The scans of a directory store inside their arrays exactly when every group that they reach has
at least one and at most four long entries by the number of its first, and these have numbers from
1 to 4. -/
theorem decodeSafe_iff (L : List ByteMem) : DecodeSafe L ↔ GroupsFit L := by
  constructor
  · intro h
    exact groupsFit_of_scanLoop (fun tmp => longA_not_same) rfl (Nat.lt_succ_self L.length)
      (h.lookup (reads_takeEntry L 0) longA (L.length + 1) fun _ => 0)
  · intro hfit
    constructor
    · exact fun e _ dst i hi => copysfn_outside (by omega)
    · exact fun hreads name fuel tmp herr => (scanLoop_safe hfit hreads).1 _ herr rfl
    · exact fun hreads name fuel tmp herr => (scanLoop_safe hfit hreads).1 _ herr rfl
    · exact fun hreads tmp fuel beginOff name h herr => (dirLoop_safe hfit hreads).1 _ herr rfl

def fifthEntry : ByteMem := fun i => if i = 0 then 0x45 else if i = 11 then 0x0f else 0x61

/-- A long name that other systems write is copied past the end of the array. -/
theorem not_decodeSafe_fifthEntry : ¬DecodeSafe [fifthEntry] := by
  intro h
  exact h.lookup (reads_takeEntry [fifthEntry] 0) longA 1 (fun _ => 0) rfl

end StartOS.Fat32FileSystem
