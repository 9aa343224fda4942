import StartOS.Fs.DirFormat

/-! # Filling a buffer

A call of `ReadDir` makes one record after another until one does not fit. What it
has made is a prefix of what its directory has to give, and the call goes back to
the first entry that is left.
-/

namespace StartOS

open Hoare

/-- Calls of `filldir` up to the first that fails; the pieces that are left. -/
def fillPieces (tmp : ByteMem) : List Piece → ReadDirHeader → List Piece × ReadDirHeader
  | [], h => ([], h)
  | p :: ps, h =>
    match filldir tmp h (fun i => p.bytes.getD i 0) p.bytes.length p.ino p.type with
    | (ret, h) => if ret < 0 then (p :: ps, h) else fillPieces tmp ps h

def recordOf (name de : List UInt8) : Record where
  name := untilNul name
  ino := ByteMem.readLE (fun i => de.getD i 0) 0 8
  type := ByteMem.readLE (fun i => de.getD i 0) 18 1

/-- The records in what `either_copyout` was given, the first one first. Each is two stores, and the
mark of one that did not fit is the latest. -/
def records (out : List (ℕ × List UInt8)) : List Record :=
  (pairs (if out.length % 2 = 1 then out.tail else out)).reverse
where
  pairs : List (ℕ × List UInt8) → List Record
    | name :: de :: out => recordOf name.2 de.2 :: pairs out
    | _ => []

/-- A call with a buffer of length `len` has made records of the first pieces; `rest` are left. -/
structure Served (ps : List Piece) (len used : ℤ) (recs : List Record) (rest : List Piece) :
    Prop where
  split : ∃ fs, ps = fs ++ rest ∧ recs = fs.map Piece.record ∧ used = (fs.map Piece.size).sum
  le : used ≤ len
  full : ∀ p, rest.head? = some p → len < used + p.size

variable {tmp name : ByteMem} {hd h₁ : ReadDirHeader} {buf ino type n k off : ℕ} {len : ℤ}
  {p : Piece} {ps qs rest : List Piece}

section Records

theorem filldir_congr {name' : ByteMem} (h : ∀ i < n, name i = name' i) :
    filldir tmp hd name n ino type = filldir tmp hd name' n ino type := by
  have hmap : (List.range ((n : ℤ) % 2 ^ 64).toNat).map name =
      (List.range ((n : ℤ) % 2 ^ 64).toNat).map name' := by
    refine List.map_congr_left fun i hi => h i ?_
    rw [List.mem_range] at hi
    omega
  rw [filldir, filldir, hmap]

theorem records_mark {w : ℕ × List UInt8} {out : List (ℕ × List UInt8)} (heven : out.length % 2 = 0) :
    records (w :: out) = records out := by
  rw [records, records, if_pos (by rw [List.length_cons]; omega), if_neg (by omega), List.tail_cons]

theorem records_record {nm de : ℕ × List UInt8} {out : List (ℕ × List UInt8)}
    (heven : out.length % 2 = 0) :
    records (nm :: de :: out) = records out ++ [recordOf nm.2 de.2] := by
  have hlen : ¬(nm :: de :: out).length % 2 = 1 := by
    simp only [List.length_cons]
    omega
  rw [records, records, if_neg hlen, if_neg (by omega), records.pairs, List.reverse_cons]

theorem readLE_map_range {m : ByteMem} {a : ℕ} (h : a + k ≤ n) :
    ByteMem.readLE (fun i => ((List.range n).map m).getD i 0) a k = m.readLE a k := by
  refine ByteMem.readLE_congr fun i _ hi => ?_
  rw [Fat32FileSystem.getD_map_range, if_pos (by omega)]

theorem recordOf_linuxDirent {off reclen : ℕ}
    (hname : (List.range p.bytes.length).map name = p.bytes) :
    recordOf ((List.range p.bytes.length).map name)
      ((List.range 24).map (linuxDirent tmp p.ino off reclen p.type)) = p.record := by
  rw [recordOf, hname, readLE_map_range (by norm_num), readLE_map_range (by norm_num), Piece.record,
    linuxDirent, ByteMem.readLE_writeLE_disjoint (by omega), ByteMem.readLE_writeLE_disjoint (by omega),
    ByteMem.readLE_writeLE_disjoint (by omega), ByteMem.readLE_writeLE, ByteMem.readLE_writeLE]
  norm_num

theorem Piece.size_bounds (p : Piece) : 24 ≤ p.size ∧ p.size < 2 ^ 16 := by
  have hlt := p.length_lt
  have hlen := recLen_bounds (n := p.bytes.length) (by omega) (by omega)
  rw [size]
  omega

theorem Within.piece (tmp : ByteMem) (h : Within buf len hd) (hmax : len < 2 ^ 31)
    (hfits : hd.used + p.size ≤ len) :
    ∃ h₁, filldir tmp hd (fun i => p.bytes.getD i 0) p.bytes.length p.ino p.type = (0, h₁) ∧
      Within buf len h₁ ∧ h₁.used = hd.used + p.size ∧
      records h₁.out = records hd.out ++ [p.record] := by
  have hlt := p.length_lt
  have hroom := h.room
  have hfree := h.free
  have hused := h.used
  have hsize := p.size_bounds
  rw [Piece.size] at hfits hsize
  obtain ⟨a, de, -, hde, hrec⟩ :=
    @filldir_record tmp (fun i => p.bytes.getD i 0) hd p.ino p.type p.bytes.length (by omega)
  refine ⟨_, hrec, (h.record hmax (by omega) (by omega) hrec).1, ?_, ?_⟩
  · rw [Piece.size]
    exact toInt32_of_lt (by omega) (by omega)
  · have hbytes : (List.range p.bytes.length).map (fun i => p.bytes.getD i 0) = p.bytes := by
      refine List.ext_getElem (by simp) fun i h₁ h₂ => ?_
      rw [List.getElem_map, List.getElem_range, List.getD_eq_getElem _ _ h₂]
    have hn : ((p.bytes.length : ℤ) % 2 ^ 64).toNat = p.bytes.length := by omega
    rw [records_record h.even, hn, hde, recordOf_linuxDirent hbytes]

theorem Within.no_room (tmp : ByteMem) (h : Within buf len hd) (hmax : len < 2 ^ 31)
    (hfull : len < hd.used + p.size) :
    ∃ h₁, filldir tmp hd (fun i => p.bytes.getD i 0) p.bytes.length p.ino p.type = (-1, h₁) ∧
      h₁.used = hd.used ∧ records h₁.out = records hd.out := by
  have hroom := h.room
  have hfree := h.free
  have hused := h.used
  rw [Piece.size] at hfull
  refine ⟨_, filldir_full (by omega), rfl, records_mark h.even⟩

end Records

section Fill

theorem fillPieces_cons_room {h : ReadDirHeader}
    (hrec : filldir tmp hd (fun i => p.bytes.getD i 0) p.bytes.length p.ino p.type = (0, h)) :
    fillPieces tmp (p :: ps) hd = fillPieces tmp ps h := by
  rw [fillPieces, hrec]
  exact if_neg (lt_irrefl 0)

theorem fillPieces_cons_full {h : ReadDirHeader}
    (hfull : filldir tmp hd (fun i => p.bytes.getD i 0) p.bytes.length p.ino p.type = (-1, h)) :
    fillPieces tmp (p :: ps) hd = (p :: ps, h) := by
  rw [fillPieces, hfull]
  exact if_pos (by decide)

theorem fillPieces_append (tmp : ByteMem) (ps qs : List Piece) (hd : ReadDirHeader) :
    fillPieces tmp (ps ++ qs) hd =
    if (fillPieces tmp ps hd).1 = [] then fillPieces tmp qs (fillPieces tmp ps hd).2
    else ((fillPieces tmp ps hd).1 ++ qs, (fillPieces tmp ps hd).2) := by
  induction ps generalizing hd with
  | nil => rfl
  | cons p ps ih =>
    obtain ⟨h, hfull | hrec⟩ := filldir_cases tmp hd
      (fun i => p.bytes.getD i 0) p.bytes.length p.ino p.type
    · rw [List.cons_append, fillPieces_cons_full hfull, fillPieces_cons_full hfull]
      exact (if_neg (List.cons_ne_nil p ps)).symm
    · rw [List.cons_append, fillPieces_cons_room hrec, fillPieces_cons_room hrec, ih]

theorem fillPieces_suffix (tmp : ByteMem) (ps : List Piece) (hd : ReadDirHeader) :
    (fillPieces tmp ps hd).1 <:+ ps := by
  induction ps generalizing hd with
  | nil => exact List.suffix_rfl
  | cons p ps ih =>
    rw [fillPieces]
    dsimp only
    split
    · exact List.suffix_rfl
    · exact (ih _).trans (List.suffix_cons p ps)

/-- What a run of `filldir` makes records of is a prefix, and what comes behind it does not fit. -/
theorem fillPieces_spec (tmp : ByteMem) (ps : List Piece) (h : Within buf len hd)
    (hmax : len < 2 ^ 31) :
    ∃ fs rest h', fillPieces tmp ps hd = (rest, h') ∧ ps = fs ++ rest ∧
      records h'.out = records hd.out ++ fs.map Piece.record ∧
      h'.used = hd.used + (fs.map Piece.size).sum ∧ h'.used ≤ len ∧
      ∀ p, rest.head? = some p → len < h'.used + p.size := by
  induction ps generalizing hd with
  | nil =>
    have hroom := h.room
    have hfree := h.free
    refine ⟨[], [], hd, rfl, rfl, ?_, ?_, by omega, by simp⟩
    · rw [List.map_nil, List.append_nil]
    · rw [List.map_nil, List.sum_nil, add_zero]
  | cons p ps ih =>
    have hroom := h.room
    have hfree := h.free
    rcases le_or_gt (hd.used + p.size) len with hfits | hfull
    · obtain ⟨h₁, hrec, hwithin, hused, hout⟩ := h.piece tmp hmax hfits
      obtain ⟨fs, rest, h', hfill, rfl, hrecs, hsum, hle, hnext⟩ := ih hwithin
      refine ⟨p :: fs, rest, h', (fillPieces_cons_room hrec).trans hfill, rfl, ?_, ?_, hle, hnext⟩
      · rw [hrecs, hout, List.map_cons, List.append_assoc, List.singleton_append]
      · rw [hsum, hused, List.map_cons, List.sum_cons, add_assoc]
    · obtain ⟨h₁, hrec, hused, hout⟩ := h.no_room tmp hmax hfull
      refine ⟨[], p :: ps, h₁, fillPieces_cons_full hrec, rfl, ?_, ?_, by omega, ?_⟩
      · rw [hout, List.map_nil, List.append_nil]
      · rw [hused, List.map_nil, List.sum_nil, add_zero]
      · rintro q hq
        cases hq
        omega

theorem served_of_fill {h' : ReadDirHeader} (h0 : 0 ≤ len) (hmax : len < 2 ^ 31)
    (hfill : fillPieces tmp ps ⟨buf, len, 0, 0, []⟩ = (rest, h')) :
    Served ps len h'.used (records h'.out) rest := by
  obtain ⟨fs, rest', h₁, hrun, hsplit, hrecs, hused, hle, hnext⟩ :=
    fillPieces_spec tmp ps (within_start h0) hmax
  rw [hfill] at hrun
  cases hrun
  refine ⟨⟨fs, hsplit, hrecs, ?_⟩, hle, hnext⟩
  rw [hused]
  exact zero_add _

end Fill

section Dots

def dotPiece (k : ℕ) : Piece where
  bytes := List.replicate (2 - k) 0x2e
  ino := 1
  type := 4
  length_lt := by rw [List.length_replicate]; omega

def dotPieces : ℕ → List Piece
  | 0 => []
  | k + 1 => dotPiece k :: dotPieces k

theorem length_dotPieces (k : ℕ) : (dotPieces k).length = k := by
  induction k with
  | zero => rfl
  | succ k ih => rw [dotPieces, List.length_cons, ih]

theorem size_dotPiece (hk : k < 2) : (dotPiece k).size = 32 := by
  have hlen : ((dotPiece k).bytes.length : ℤ) = 2 - k := by
    rw [dotPiece, List.length_replicate]
    omega
  rw [Piece.size, hlen, recLen]
  omega

theorem filldir_dotPiece (hk : k < 2) :
    filldir tmp hd (fun i => if i < 2 then 0x2e else 0) (2 - (k : ℤ)) 1 4 =
      filldir tmp hd (fun i => (dotPiece k).bytes.getD i 0) (dotPiece k).bytes.length (dotPiece k).ino
        (dotPiece k).type := by
  have hlen : (2 : ℤ) - k = ((dotPiece k).bytes.length : ℕ) := by
    rw [dotPiece, List.length_replicate]
    omega
  rw [hlen]
  refine filldir_congr fun i hi => ?_
  rw [List.getD_eq_getElem _ _ hi]
  simp only [dotPiece, List.length_replicate] at hi
  rw [if_pos (by omega)]
  simp only [dotPiece, List.getElem_replicate]

theorem fillDots_eq (tmp : ByteMem) (hd : ReadDirHeader) (hk : k ≤ 2) (hoff : off + k < 2 ^ 64) :
    fillDots tmp k off hd = (decide ((fillPieces tmp (dotPieces k) hd).1 = []),
      off + (k - (fillPieces tmp (dotPieces k) hd).1.length),
        (fillPieces tmp (dotPieces k) hd).2) := by
  induction k generalizing off hd with
  | zero => rfl
  | succ k ih =>
    rw [fillDots, filldir_dotPiece (by omega)]
    obtain ⟨h, hfull | hrec⟩ := filldir_cases tmp hd (fun i => (dotPiece k).bytes.getD i 0)
      (dotPiece k).bytes.length (dotPiece k).ino (dotPiece k).type
    · rw [hfull, dotPieces, fillPieces_cons_full hfull, List.length_cons, length_dotPieces, Nat.sub_self,
        Nat.add_zero]
      rfl
    · rw [hrec, dotPieces, fillPieces_cons_room hrec]
      dsimp only
      have hlen := (fillPieces_suffix tmp (dotPieces k) h).length_le
      rw [length_dotPieces] at hlen
      rw [if_neg (lt_irrefl 0), ih _ (by omega) (by omega), Nat.mod_eq_of_lt (by omega)]
      congr 2
      omega

end Dots

namespace Fat32FileSystem

section Reader

/-! ## The entries of a directory -/

variable {σ : Type} {I : σ → Prop} {rd : ℕ → StateT σ Kernel (Option ByteMem)} {s : σ}
  {e short : ByteMem} {L L' longs : List ByteMem} {items : List Item}

/-- In each state of `I` the reads from `off` on give the entries of `L`, and lead to such a
state. -/
def Gives (I : σ → Prop) (rd : ℕ → StateT σ Kernel (Option ByteMem)) (off : ℕ) (L : List ByteMem) :
    Prop :=
  ∀ s, I s → ∀ k e, L[k]? = some e → ∃ s', rd (off + 32 * k) s = .ok (some e, s') ∧ I s'

theorem Gives.head (h : Gives I rd off (e :: L)) (hs : I s) :
    ∃ s', rd off s = .ok (some e, s') ∧ I s' := h s hs 0 e rfl

theorem Gives.append (h : Gives I rd off (L ++ L')) : Gives I rd (off + 32 * L.length) L' := by
  intro s hs k e hk
  have hread := h s hs (L.length + k) e
  rw [List.getElem?_append_right (Nat.le_add_right ..), Nat.add_sub_cancel_left, Nat.mul_add,
    ← Nat.add_assoc] at hread
  exact hread hk

theorem Gives.tail (h : Gives I rd off (e :: L)) : Gives I rd (off + 32) L :=
  Gives.append (L := [e]) h

/-- The characters of one more long entry go before those of the others. -/
theorem blit_chars (name e : ByteMem) (longs : List ByteMem) :
    (name.blit (13 * longs.length) 13 fun i => e (charPos i)).blit 0 (13 * longs.length)
      (fun i => (longs.reverse.flatMap chars).getD i 0) =
      name.blit 0 (13 * (longs.length + 1)) fun i =>
        ((e :: longs).reverse.flatMap chars).getD i 0 := by
  have hlen : (longs.reverse.flatMap chars).length = 13 * longs.length := by
    rw [length_flatMap_chars, List.length_reverse]
  have hsplit : (e :: longs).reverse.flatMap chars = longs.reverse.flatMap chars ++ chars e := by
    rw [List.reverse_cons, List.flatMap_append, List.flatMap_singleton]
  rw [hsplit, Nat.mul_succ]
  have hjoin := ByteMem.blit_prepend (m := name) (a := 0) (n := 13 * longs.length) (k := 13)
    (f := fun i => (longs.reverse.flatMap chars ++ chars e).getD i 0) (g := fun i => e (charPos i))
    fun i hi => by
      rw [List.getD_append_right _ _ _ _ (by omega), hlen, Nat.add_sub_cancel_left, chars,
        getD_map_range, if_pos hi]
  rw [Nat.zero_add] at hjoin
  rw [← hjoin]
  refine ByteMem.blit_congr fun i hi => ?_
  rw [List.getD_append _ _ _ _ (by omega)]

variable {fuel beginOff : ℕ} {f : FileEntry} {h : ReadDirHeader} {s₁ : σ}

theorem FileEntry.first_long (hf : f.longs = e :: longs) : e 11 = 0x0f ∧ e 0 ≠ 0 ∧
    e 0 &&& 0xc0 = 0x40 ∧ sequenceNo e = longs.length + 1 ∧
    longs.map sequenceNo = (List.range longs.length).map fun j => longs.length - j := by
  have hseq := f.sequence
  have hnum := f.map_sequenceNo
  have hle := f.length_le
  rw [hf, List.length_cons, List.range_succ_eq_map] at hseq hnum
  rw [hf, List.length_cons] at hle
  rw [List.map_cons, List.map_cons, List.cons.injEq, Nat.sub_zero] at hseq hnum
  obtain ⟨h0, hs⟩ := sequenceByte_first (n := longs.length + 1) (by omega) hle
  refine ⟨f.long_attrib e (by rw [hf]; exact List.mem_cons_self), ?_, ?_, hnum.1, ?_⟩
  · rw [hseq.1]
    exact h0
  · rw [hseq.1]
    exact hs
  · rw [hnum.2, List.map_map]
    refine List.map_congr_left fun j _ => ?_
    simp only [Function.comp_apply]
    omega

end Reader

end Fat32FileSystem

end StartOS
