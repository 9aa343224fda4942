import StartOS.Fs.DirRead

/-! # Looking a name up in a directory

The scan of `Lookup` keeps `tmp_name` from one entry to the next and compares as many characters
as the name has. Where what is left of an earlier name does not decide, it finds the first file
whose name begins with the name, in capitals or not.
-/

namespace StartOS

open Hoare

def CString.chars (name : CString) : List UInt8 := (List.range name.strlen).map name.bytes

namespace Fat32FileSystem

variable {tmp : ByteMem} {name : CString} {e : ByteMem} {w : List UInt8} {it : Item} {n : ℕ}

section Names

def lower (l : List UInt8) : List UInt8 := l.map toLowCase

/-- What `copysfn` writes: the name in a short entry, with a terminator behind an extension. -/
def shortWritten (e : ByteMem) : List UInt8 :=
  shortChars e ++ if blankAt e 8 3 = 0 then [] else [0]

/-- What the scan writes to `tmp_name` at an item. -/
def Item.written : Item → List UInt8
  | deleted e _ => if e 11 = 0x0f then [] else shortWritten e
  | file f => if f.longs = [] then shortWritten f.short else f.longs.reverse.flatMap chars

theorem copysfn_eq_overlay (e tmp : ByteMem) : copysfn e tmp = overlay tmp (shortWritten e) := by
  have hchars : copiedName e tmp = shortChars e := copiedName_eq_shortChars tmp
  rw [copiedName] at hchars
  have hlen := length_shortChars e
  have hat : ∀ i < copysfnLength e, copysfn e tmp i = (shortChars e).getD i 0 := fun i hi => by
    rw [← hchars, getD_map_range, if_pos hi]
  funext i
  rw [overlay, shortWritten]
  by_cases hi : i < copysfnLength e
  · rw [hat i hi, List.getD_append _ _ _ _ (by omega), List.getD_eq_getElem _ _ (by omega),
      List.getD_eq_getElem _ _ (by omega)]
  · rw [List.getD_append_right _ _ _ _ (by omega), hlen, copysfn]
    rw [copysfnLength] at hi ⊢
    dsimp only
    split
    · rename_i hext
      rw [if_pos hext] at hi
      rw [ByteMem.blit_of_not_mem (by omega), List.getD_nil]
    · rename_i hext
      rw [if_neg hext] at hi
      rcases Nat.eq_or_lt_of_le (not_lt.mp hi) with heq | hgt
      · rw [ByteMem.fill_of_mem (by omega) (by omega), ← heq, Nat.sub_self]
        rfl
      · rw [ByteMem.fill_of_not_mem (by omega), ByteMem.blit_of_not_mem (by omega),
          ByteMem.fill_of_not_mem (by omega), ByteMem.blit_of_not_mem (by omega),
          List.getD_eq_default _ _ (by rw [List.length_singleton]; omega)]

theorem strncasecmp_eq_zero_iff {p q : ByteMem} (h : ∀ i < n, p i ≠ 0) :
    strncasecmp p q n = 0 ↔ ∀ i < n, toLowCase (p i) = toLowCase (q i) := by
  induction n generalizing p q with
  | zero => exact iff_of_true rfl fun i hi => absurd hi (Nat.not_lt_zero i)
  | succ n ih =>
    have hrest := ih (p := fun i => p (i + 1)) (q := fun i => q (i + 1)) fun i hi =>
      h (i + 1) (Nat.succ_lt_succ hi)
    have hzero : ((toLowCase (p 0)).toNat : ℤ) - (toLowCase (q 0)).toNat = 0 ↔
        toLowCase (p 0) = toLowCase (q 0) := by
      rw [sub_eq_zero, Nat.cast_inj, UInt8.toNat_inj]
    rw [strncasecmp]
    split
    · rename_i hor
      have hne := hor.resolve_right (h 0 n.succ_pos)
      exact iff_of_false hne fun hall => hne (hzero.mpr (hall 0 n.succ_pos))
    · rename_i hor
      have heq := hzero.mp (not_not.mp (not_or.mp hor).1)
      rw [hrest]
      constructor
      · rintro hall (_ | i) hi
        · exact heq
        · exact hall i (Nat.lt_of_succ_lt_succ hi)
      · exact fun hall i hi => hall (i + 1) (Nat.succ_lt_succ hi)

theorem toLowCase_eq_zero_iff {c : UInt8} : toLowCase c = 0 ↔ c = 0 := by
  rw [toLowCase]
  split
  · rename_i hc
    constructor
    · intro h
      have hle := UInt8.le_iff_toNat_le.mp hc.2
      have hsum := congrArg UInt8.toNat h
      rw [UInt8.toNat_add] at hsum
      simp only [UInt8.reduceToNat] at hle hsum
      omega
    · rintro rfl
      exact absurd hc.1 (by decide)
  · exact Iff.rfl

theorem map_prefix_iff (f : UInt8 → UInt8) : name.chars.map f <+: w.map f ↔
    name.strlen ≤ w.length ∧ ∀ i < name.strlen, f (name.bytes i) = f (w.getD i 0) := by
  rw [List.prefix_iff_getElem]
  simp only [CString.chars, List.length_map, List.length_range, List.getElem_map, List.getElem_range]
  constructor
  · rintro ⟨hle, hall⟩
    exact ⟨hle, fun i hi => by rw [hall i hi, List.getD_eq_getElem _ _ (hi.trans_le hle)]⟩
  · rintro ⟨hle, hall⟩
    exact ⟨hle, fun i hi => by rw [hall i hi, List.getD_eq_getElem _ _ (hi.trans_le hle)]⟩

theorem lower_prefix_iff : lower name.chars <+: lower w ↔
    name.strlen ≤ w.length ∧ ∀ i < name.strlen, toLowCase (name.bytes i) = toLowCase (w.getD i 0) :=
  map_prefix_iff toLowCase

/-- What was left in `tmp_name` does not decide whether the name matches. -/
def Decided (name : CString) (w : List UInt8) : Prop :=
  0 ∈ w ∨ name.strlen ≤ w.length ∨ ¬lower w <+: lower name.chars

theorem getD_untilNul {i : ℕ} (h : i < (untilNul w).length) : (untilNul w).getD i 0 = w.getD i 0 := by
  have hpre : untilNul w <+: w := List.takeWhile_prefix _
  rw [List.getD_eq_getElem _ _ h, hpre.getElem h,
    List.getD_eq_getElem _ _ (h.trans_le hpre.length_le)]

theorem getD_length_untilNul : w.getD (untilNul w).length 0 = 0 := by
  induction w with
  | nil => rfl
  | cons c w ih =>
    rw [untilNul, List.takeWhile_cons]
    split
    · rw [List.length_cons, List.getD_cons_succ]
      exact ih
    · rename_i hc
      rw [List.length_nil, List.getD_cons_zero]
      simpa using hc

theorem length_untilNul_lt (h : 0 ∈ w) : (untilNul w).length < w.length := by
  have hpre : untilNul w <+: w := List.takeWhile_prefix _
  refine lt_of_le_of_ne hpre.length_le fun heq => ?_
  have hall : untilNul w = w := hpre.eq_of_length heq
  rw [untilNul, List.takeWhile_eq_self_iff] at hall
  simpa using hall 0 h

theorem overlay_agrees_iff {f : UInt8 → UInt8} (hf : ∀ c, f c = f 0 ↔ c = 0)
    (hd : 0 ∈ w ∨ name.strlen ≤ w.length ∨ ¬w.map f <+: name.chars.map f) :
    (∀ i < name.strlen, f (name.bytes i) = f (overlay tmp w i)) ↔
      name.chars.map f <+: (untilNul w).map f := by
  have hpre : untilNul w <+: w := List.takeWhile_prefix _
  have hat : ∀ i, i < w.length → overlay tmp w i = w.getD i 0 := fun i hi => by
    rw [overlay, List.getD_eq_getElem _ _ hi, List.getD_eq_getElem _ _ hi]
  rw [map_prefix_iff]
  constructor
  · intro hall
    have hle : name.strlen ≤ (untilNul w).length := by
      by_contra hlt
      have hend : (untilNul w).length < w.length := by
        rcases hd with hmem | hlong | hdiff
        · exact length_untilNul_lt hmem
        · omega
        · refine lt_of_le_of_ne hpre.length_le fun heq => hdiff ?_
          rw [List.prefix_iff_getElem]
          simp only [CString.chars, List.length_map, List.length_range, List.getElem_map,
            List.getElem_range]
          refine ⟨by omega, fun i hi => ?_⟩
          rw [hall i (by omega), hat i hi, List.getD_eq_getElem _ _ hi]
      have hnul := hall (untilNul w).length (by omega)
      rw [hat _ hend, getD_length_untilNul] at hnul
      exact name.ne_nul _ (by omega) ((hf _).mp hnul)
    refine ⟨hle, fun i hi => ?_⟩
    rw [hall i hi, hat i ((hi.trans_le hle).trans_le hpre.length_le), getD_untilNul (hi.trans_le hle)]
  · rintro ⟨hle, hall⟩ i hi
    rw [hall i hi, hat i ((hi.trans_le hle).trans_le hpre.length_le), getD_untilNul (hi.trans_le hle)]

theorem strncasecmp_overlay (hd : Decided name w) :
    strncasecmp name.bytes (overlay tmp w) name.strlen = 0 ↔
      lower name.chars <+: lower (untilNul w) :=
  (strncasecmp_eq_zero_iff name.ne_nul).trans (overlay_agrees_iff (fun _ => toLowCase_eq_zero_iff) hd)

end Names

section Scan

variable {σ : Type} {I : σ → Prop} {rd : ℕ → StateT σ Kernel (Option ByteMem)} {s : σ}
  {short : ByteMem → ByteMem → ByteMem} {same : ByteMem → Bool} {e' : ByteMem}
  {longs L : List ByteMem}
  {items : List Item} {off nlfn fuel : ℕ} {f : FileEntry}

def Writes (short : ByteMem → ByteMem → ByteMem) (tmp : ByteMem) : Item → ByteMem
  | .deleted e _ => if e 11 = 0x0f then tmp else short e tmp
  | .file f => if f.longs = [] then short f.short tmp
    else overlay tmp (f.longs.reverse.flatMap chars)

def Item.last : Item → ByteMem
  | deleted e _ => e
  | file f => f.short

theorem readGroup_longs (nlfn : ℕ) (tmp : ByteMem) (hg : Gives I rd off (longs ++ e' :: L))
    (hnum : longs.map sequenceNo = (List.range longs.length).map fun j => longs.length - j)
    (h₄ : longs.length ≤ 4) (hs : I s) : ∃ s', readGroup rd nlfn longs.length off tmp s =
      .ok (some ⟨off + 32 * (longs.length + 1), e', tmp.blit 0 (13 * longs.length) fun i =>
        (longs.reverse.flatMap chars).getD i 0, nlfn⟩, s') ∧ I s' := by
  induction longs generalizing off tmp s with
  | nil =>
    obtain ⟨s', hread, hs'⟩ := hg.head hs
    refine ⟨s', ?_, hs'⟩
    rw [List.length_nil, readGroup, bind_of_ok hread, Nat.mul_zero, ByteMem.blit_zero]
    rfl
  | cons e longs ih =>
    rw [List.cons_append] at hg
    rw [List.length_cons, List.range_succ_eq_map, List.map_cons, List.map_cons, List.map_map,
      List.cons.injEq] at hnum
    obtain ⟨hfirst, hrest⟩ := hnum
    rw [List.length_cons] at h₄
    obtain ⟨s₁, hread, hs₁⟩ := hg.head hs
    have hcopy := copylfn_eq (e := e) tmp ⟨by omega, by omega⟩
    rw [hfirst] at hcopy
    simp only [Nat.sub_zero, Nat.add_sub_cancel] at hcopy
    have hrest' : longs.map sequenceNo = (List.range longs.length).map fun j => longs.length - j := by
      rw [hrest]
      refine List.map_congr_left fun j _ => ?_
      simp only [Function.comp_apply]
      omega
    obtain ⟨s', hgroup, hs'⟩ := ih (tmp.blit (13 * longs.length) 13 fun i => e (charPos i)) hg.tail
      hrest' (by omega) hs₁
    refine ⟨s', ?_, hs'⟩
    rw [List.length_cons, readGroup, bind_of_ok hread]
    dsimp only
    rw [hcopy]
    dsimp only
    rw [hgroup, blit_chars, Nat.mul_succ 32 (longs.length + 1), ← Nat.add_assoc, Nat.add_right_comm]

theorem blit_eq_overlay (tmp : ByteMem) (w : List UInt8) :
    (tmp.blit 0 w.length fun i => w.getD i 0) = overlay tmp w := by
  funext i
  rw [overlay]
  by_cases hi : i < w.length
  · rw [ByteMem.blit_of_mem (Nat.zero_le i) (by omega), Nat.sub_zero, List.getD_eq_getElem _ _ hi,
      List.getD_eq_getElem _ _ hi]
  · rw [ByteMem.blit_of_not_mem (by omega), List.getD_eq_default _ _ (not_lt.mp hi)]

/-- A turn of the scan over an item. A file with long entries has them counted. -/
theorem readName_item (tmp : ByteMem) (nlfn : ℕ) (hg : Gives I rd off (it.entries ++ L)) (hs : I s)
    (hfits : ¬it.TooLong) : ∃ n s', readName rd short off tmp nlfn s =
      .ok (some ⟨off + 32 * it.entries.length, it.last, Writes short tmp it, n⟩, s') ∧ I s' ∧
      ∀ f, it = .file f → f.longs ≠ [] → n = f.longs.length := by
  cases it with
  | deleted e he =>
    obtain ⟨s₁, hread, hs₁⟩ := Gives.head hg hs
    have h0 : e 0 ≠ 0 := by
      rw [he]
      decide
    have hb : ¬e 0 &&& 0xc0 = 0x40 := by
      rw [he]
      decide
    refine ⟨nlfn, s₁, ?_, hs₁, fun f hf => by cases hf⟩
    rw [readName, bind_of_ok hread]
    dsimp only
    rw [if_neg h0]
    by_cases hl : e 11 = 0x0f
    · rw [if_neg (not_not.mpr hl), if_neg hb, Writes, if_pos hl]
      rfl
    · rw [if_pos hl, Writes, if_neg hl]
      rfl
  | file f =>
    have hlen : (Item.file f).entries.length = f.longs.length + 1 := by
      rw [Item.entries, List.length_append, List.length_singleton]
    rw [Item.entries, List.append_assoc, List.singleton_append] at hg
    rw [hlen]
    rcases hf : f.longs with _ | ⟨e, longs⟩
    · rw [hf, List.nil_append] at hg
      obtain ⟨s₁, hread, hs₁⟩ := hg.head hs
      refine ⟨nlfn, s₁, ?_, hs₁, fun g hg' hne => ?_⟩
      · rw [readName, bind_of_ok hread]
        dsimp only
        rw [if_neg f.not_mark, if_pos f.short_attrib, Writes, if_pos hf]
        rfl
      · cases hg'
        exact absurd hf hne
    · obtain ⟨hl, h0, hb, hseq, hnum⟩ := FileEntry.first_long hf
      have h₄ : longs.length + 1 ≤ 4 := by
        have hle := not_lt.mp hfits
        rw [hf, List.length_cons] at hle
        exact hle
      rw [hf, List.cons_append] at hg
      obtain ⟨s₁, hread, hs₁⟩ := hg.head hs
      have hcopy := copylfn_eq (e := e) tmp ⟨by omega, by omega⟩
      rw [hseq, Nat.add_sub_cancel] at hcopy
      rw [sequenceNo] at hseq
      obtain ⟨s₂, hgroup, hs₂⟩ := readGroup_longs (longs.length + 1)
        (tmp.blit (13 * longs.length) 13 fun i => e (charPos i)) hg.tail hnum (by omega) hs₁
      have hbytes : 13 * (longs.length + 1) = (f.longs.reverse.flatMap chars).length := by
        rw [length_flatMap_chars, List.length_reverse, hf, List.length_cons]
      rw [blit_chars, ← hf, hbytes, blit_eq_overlay] at hgroup
      refine ⟨longs.length + 1, s₂, ?_, hs₂, fun g hg' hne => ?_⟩
      · rw [readName, bind_of_ok hread]
        dsimp only
        rw [if_neg h0, if_neg (not_not.mpr hl), if_pos hb, hcopy]
        dsimp only
        rw [hseq, Nat.add_sub_cancel, hgroup, Writes, if_neg (by rw [hf]; simp), Nat.add_assoc,
          List.length_cons, Item.last, show 32 + 32 * (longs.length + 1) =
            32 * (longs.length + 1 + 1) by ring]
      · cases hg'
        rw [hf, List.length_cons]

/-- What the scan ends with: the first item that matches, or nothing. -/
inductive ScanEnds (I : σ → Prop) (P : Item → Prop) (items : List Item) (off : ℕ) :
    Except Halt (Option Scanned × σ) → Prop
  | found (pre post : List Item) (it : Item) (tmp : ByteMem) (n : ℕ) (s' : σ) :
      items = pre ++ it :: post → P it → (∀ x ∈ pre, ¬P x) → I s' →
      (∀ f, it = .file f → f.longs ≠ [] → n = f.longs.length) →
      ScanEnds I P items off (.ok (some
        ⟨off + 32 * (layout (pre ++ [it])).length, it.last, tmp, n⟩, s'))
  | missed (s' : σ) : (∀ x ∈ items, ¬P x) → I s' → ScanEnds I P items off (.ok (none, s'))

theorem ScanEnds.cons {P : Item → Prop} {r : Except Halt (Option Scanned × σ)} (hit : ¬P it)
    (h : ScanEnds I P items (off + 32 * it.entries.length) r) : ScanEnds I P (it :: items) off r := by
  have hpre : ∀ {pre : List Item}, (∀ x ∈ pre, ¬P x) → ∀ x ∈ it :: pre, ¬P x := fun hall x hx => by
    rcases List.mem_cons.mp hx with rfl | hx
    · exact hit
    · exact hall x hx
  cases h with
  | found pre post it' tmp n s' hsplit hP hall hs' hn =>
    have hoff : off + 32 * it.entries.length + 32 * (layout (pre ++ [it'])).length =
        off + 32 * (layout (it :: pre ++ [it'])).length := by
      rw [layout, layout, List.cons_append, List.flatMap_cons, List.length_append, Nat.mul_add,
        Nat.add_assoc]
    rw [hoff]
    exact .found (it :: pre) post it' tmp n s' (by rw [hsplit]; rfl) hP (hpre hall) hs' hn
  | missed s' hall hs' => exact .missed s' (hpre hall) hs'

/-- The scan finds the first item that matches, where an item `Q`, which leaves `tmp_name` as it is, does
not stand first or finds nothing there that matches. -/
theorem scanLoop_items {P Q : Item → Prop} {mark : ByteMem} (tmp : ByteMem) (nlfn : ℕ)
    (hg : Gives I rd off (layout items ++ mark :: L)) (hmark : mark 0 = 0)
    (hfuel : items.length < fuel)
    (hs : I s) (hfits : ∀ it ∈ items, ¬it.TooLong)
    (hsame : ∀ it ∈ items, ¬Q it → ∀ tmp, same (Writes short tmp it) = true ↔ P it)
    (hkeep : ∀ it, Q it → ∀ tmp, Writes short tmp it = tmp) (hdel : ∀ it, Q it → ¬P it)
    (hstart : ∀ it, items.head? = some it → Q it → same tmp = false) :
    ScanEnds I P items off (scanLoop rd short same fuel off tmp nlfn s) := by
  induction items generalizing off tmp nlfn s fuel with
  | nil =>
    obtain ⟨fuel, rfl⟩ := Nat.exists_eq_succ_of_ne_zero (Nat.ne_of_gt hfuel)
    obtain ⟨s₁, hread, hs₁⟩ := Gives.head hg hs
    have hname : readName rd short off tmp nlfn s = .ok (none, s₁) := by
      rw [readName, bind_of_ok hread]
      dsimp only
      rw [if_pos hmark]
      rfl
    rw [scanLoop, bind_of_ok hname]
    exact .missed s₁ (fun x hx => absurd hx List.not_mem_nil) hs₁
  | cons it items ih =>
    obtain ⟨fuel, rfl⟩ := Nat.exists_eq_succ_of_ne_zero (Nat.ne_of_gt (Nat.zero_lt_of_lt hfuel))
    have hmem : ∀ {x}, x ∈ items → x ∈ it :: items := List.mem_cons_of_mem it
    have hg' : Gives I rd off (it.entries ++ (layout items ++ mark :: L)) := by
      rw [layout, List.flatMap_cons, List.append_assoc] at hg
      exact hg
    obtain ⟨n, s₁, hname, hs₁, hn⟩ := readName_item tmp nlfn hg' hs (hfits it List.mem_cons_self)
    have hcmp : same (Writes short tmp it) = true ↔ P it := by
      by_cases hq : Q it
      · rw [hkeep it hq tmp, hstart it rfl hq]
        exact iff_of_false (by simp) (hdel it hq)
      · exact hsame it List.mem_cons_self hq tmp
    rw [scanLoop, bind_of_ok hname]
    dsimp only
    by_cases hP : P it
    · rw [if_pos (hcmp.mpr hP)]
      have hlay : it.entries.length = (layout ([] ++ [it])).length := by
        rw [List.nil_append, layout, List.flatMap_singleton]
      rw [hlay]
      exact .found [] items it _ n s₁ rfl hP (fun x hx => absurd hx List.not_mem_nil) hs₁ hn
    · have hfalse : same (Writes short tmp it) = false := by
        rw [Bool.eq_false_iff]
        exact mt hcmp.mp hP
      rw [if_neg (mt hcmp.mp hP)]
      exact (ih (Writes short tmp it) n hg'.append (Nat.lt_of_succ_lt_succ hfuel) hs₁
        (fun x hx => hfits x (hmem hx)) (fun x hx => hsame x (hmem hx)) fun _ _ _ => hfalse).cons hP

end Scan

section Lookup

variable {s s' : Fat32FileSystem} {r : InodeRef} {ip : Inode} {l : List ℕ}
  {items pre post : List Item}
  {mark : ByteMem} {rest : List ByteMem} {f : FileEntry} {pos : ℕ} {g : Scanned}

/-- The name of a file begins with `name`, in capitals or not. -/
def Item.Begins (name : CString) : Item → Prop
  | deleted _ _ => False
  | file f => lower name.chars <+: lower (untilNul f.bytes)

/-- A name that can be looked for: no stored name is copied past the end of `tmp_name`, and neither
what is left there of an earlier name nor a deleted entry decides. -/
structure Searchable (name : CString) (junk : ByteMem) (items : List Item) : Prop where
  fits : ∀ it ∈ items, ¬it.TooLong
  decided : ∀ it ∈ items, ¬it.DeletedLong → Decided name it.written
  not_deleted : name.bytes 0 ≠ 0xe5
  fresh : ∀ it, items.head? = some it → it.DeletedLong → strncasecmp name.bytes junk name.strlen ≠ 0

theorem untilNul_append_nul (w : List UInt8) : untilNul (w ++ [0]) = untilNul w := by
  rw [untilNul, List.takeWhile_append]
  split
  · rename_i heq
    have hall : untilNul w = w := (List.takeWhile_prefix _).eq_of_length heq
    rw [hall]
    simp
  · rfl

theorem untilNul_shortWritten (e : ByteMem) :
    untilNul (shortWritten e) = untilNul (shortChars e) := by
  rw [shortWritten]
  split
  · rw [List.append_nil]
  · exact untilNul_append_nul _

theorem untilNul_written (f : FileEntry) : untilNul (Item.file f).written = untilNul f.bytes := by
  rw [Item.written, FileEntry.bytes]
  split
  · exact untilNul_shortWritten f.short
  · rfl

theorem writes_copysfn (it : Item) : Writes copysfn tmp it = overlay tmp it.written := by
  cases it with
  | deleted e he =>
    rw [Writes, Item.written]
    split
    · rfl
    · exact copysfn_eq_overlay e tmp
  | file f =>
    rw [Writes, Item.written]
    split
    · exact copysfn_eq_overlay f.short tmp
    · rfl

theorem not_prefix_deleted (he : e 0 = 0xe5) (hpos : 0 < name.strlen) (hne : name.bytes 0 ≠ 0xe5) :
    ¬lower name.chars <+: lower (untilNul (shortWritten e)) := by
  rw [untilNul_shortWritten, lower_prefix_iff]
  rintro ⟨hle, hall⟩
  have hfirst := hall 0 hpos
  have hlt := hpos.trans_le hle
  rw [getD_untilNul hlt] at hfirst
  have hchars : (shortChars e).getD 0 0 = 0xe5 := by
    have hb : unpadded ((List.range 8).map e) = 0xe5 :: unpadded ((List.range' 1 7).map e) := by
      rw [show List.range 8 = 0 :: List.range' 1 7 from rfl, List.map_cons, he, unpadded,
        List.takeWhile_cons, if_pos (by decide)]
      rfl
    rw [shortChars, hb, joinName]
    split <;> rfl
  rw [hchars] at hfirst
  refine hne ?_
  rw [toLowCase] at hfirst
  split at hfirst
  · rename_i hc
    have hle₁ := UInt8.le_iff_toNat_le.mp hc.1
    have hle₂ := UInt8.le_iff_toNat_le.mp hc.2
    have hsum := congrArg UInt8.toNat hfirst
    rw [UInt8.toNat_add] at hsum
    simp only [UInt8.reduceToNat, show toLowCase 0xe5 = 0xe5 from rfl] at hle₁ hle₂ hsum
    omega
  · exact hfirst

theorem Searchable.same_iff {junk : ByteMem} (h : Searchable name junk items) (hpos : 0 < name.strlen)
    (hit : it ∈ items) (hlong : ¬it.DeletedLong) (tmp : ByteMem) :
    decide (strncasecmp name.bytes (Writes copysfn tmp it) name.strlen = 0) = true ↔
      it.Begins name := by
  rw [decide_eq_true_iff, writes_copysfn, strncasecmp_overlay (h.decided it hit hlong)]
  cases it with
  | deleted e he =>
    rw [Item.written, if_neg (show ¬e 11 = 0x0f from hlong)]
    exact iff_of_false (not_prefix_deleted he hpos h.not_deleted) not_false
  | file f =>
    rw [untilNul_written]
    exact Iff.rfl

theorem DirAtRest.position (h : DirAtRest s r l) (hg : g.off ≤ 4096 * l.length) :
    ∃ s', entryPos r g s = .ok (s.posOf l g.off, s') ∧ Stays s r l s' := by
  obtain ⟨ip, hon, -⟩ := h.node
  have hpos := hon.length_pos
  have hlen := hon.length_le
  have hk : (g.off - 32) / 4096 < l.length := by omega
  obtain ⟨s', hbmap, hstay, -⟩ := h.mapped hk
  refine ⟨s', ?_, hstay⟩
  rw [entryPos, get_bind, h.geometry.bytesPerCluster, Nat.mod_eq_of_lt (by omega), bind_of_ok hbmap,
    get_bind,
    pure_apply, posOf, List.getD_eq_getElem _ _ hk]
  simp only [firstSectorOfCluster, hstay.info]

/-- `BuildInode` takes the inode of the position, or makes one of the entry. -/
theorem buildInode_spec (e : ByteMem) (pos : ℕ) (hr : s.inode? r = some ip) :
    ∃ s', buildInode e pos r s = .ok (.pos pos, s') ∧ s'.inode? (.pos pos) =
      some ((s.inodes pos).elim (inodeOf e pos r) fun iq => { iq with ref := iq.ref + 1 }) := by
  have hdup : ∀ {q : InodeRef} {iq : Inode}, s.inode? q = some iq →
      dup q s = .ok (q, s.setInode q { iq with ref := iq.ref + 1 }) := fun hq => by
    rw [dup, updateInodeWith, bind_assoc, bind_of_ok (inode_eq hq)]
    rfl
  cases hp : s.inodes pos with
  | some iq =>
    have hget : getInode pos s = .ok
        (some (.pos pos), s.setInode (.pos pos) { iq with ref := iq.ref + 1 }) := by
      rw [getInode, get_bind]
      simp only [hp]
      rw [bind_of_ok (hdup (q := .pos pos) hp)]
      rfl
    refine ⟨s.setInode (.pos pos) { iq with ref := iq.ref + 1 }, ?_, ?_⟩
    · rw [buildInode, bind_of_ok hget]
      rfl
    · rw [inode?_setInode, if_pos rfl]
      rfl
  | none =>
    have hget : getInode pos s = .ok (none, s) := by
      rw [getInode, get_bind]
      simp only [hp]
      rfl
    refine ⟨(s.setInode r { ip with ref := ip.ref + 1 }).setInode (.pos pos) (inodeOf e pos r), ?_, ?_⟩
    · rw [buildInode, bind_of_ok hget]
      dsimp only
      rw [bind_of_ok (hdup hr), modify_bind]
      rfl
    · rw [inode?_setInode, if_pos rfl]
      rfl

theorem strlen_pos (hd : ¬IsDots name) : 0 < name.strlen := by
  refine Nat.pos_of_ne_zero fun h0 => hd (.inl ?_)
  rw [h0]
  rfl

theorem Stays.inodes_eq (h : Stays s r l s') (hr : r ≠ .pos pos) : s'.inodes pos = s.inodes pos :=
  h.others (.pos pos) (Ne.symm hr)

theorem DirAtRest.length_items_lt (h : DirAtRest s r l)
    (hl : dirEntries s l = layout items ++ mark :: rest) : items.length < scanFuel := by
  obtain ⟨ip, hon, -⟩ := h.node
  have hlen := hon.length_le
  have hle := Listed.length_items_le items
  have hsize := congrArg List.length hl
  rw [length_dirEntries, List.length_append, List.length_cons] at hsize
  rw [scanFuel, minusOne]
  omega

theorem lookupScan_ends (h : DirAtRest s r l) (hl : dirEntries s l = layout items ++ mark :: rest)
    (hm : mark 0 = 0) (hd : ¬IsDots name) (hs : Searchable name s.junk items) :
    ScanEnds (Stays s r l) (Item.Begins name) items 0
      (lookupScan (readEntry r) name scanFuel s.junk s) := by
  have hg : Gives (Stays s r l) (readEntry r) 0 (layout items ++ mark :: rest) :=
    hl ▸ gives_dirEntries s r l
  refine scanLoop_items (Q := Item.DeletedLong) s.junk 0 hg hm (h.length_items_lt hl) h.stays hs.fits
    (fun it hit hlong tmp => hs.same_iff (strlen_pos hd) hit hlong tmp) ?_ ?_ fun it hhead hlong => ?_
  · rintro (⟨e, he⟩ | f) hlong tmp
    · exact if_pos hlong
    · exact hlong.elim
  · rintro (⟨e, he⟩ | f) hlong
    · exact not_false
    · exact hlong.elim
  · exact decide_eq_false (hs.fresh it hhead hlong)

/-- How `Lookup` ends: with the inode of the first file whose name begins with the name, in capitals
or not, or without one. -/
inductive LookupEnds (s : Fat32FileSystem) (r : InodeRef) (l : List ℕ) (items : List Item)
    (name : CString) : Option InodeRef → Fat32FileSystem → Prop
  | found {pre post : List Item} {f : FileEntry} {pos : ℕ} {s' : Fat32FileSystem}
    (hsplit : items = pre ++ .file f :: post) (hbegins : (Item.file f).Begins name)
    (hpre : ∀ it ∈ pre, ¬it.Begins name)
    (hpos : pos = s.posOf l (32 * (layout (pre ++ [.file f])).length))
    (hnode : r ≠ .pos pos → s'.inode? (.pos pos) =
      some ((s.inodes pos).elim (inodeOf f.short pos r) fun iq => { iq with ref := iq.ref + 1 })) :
    LookupEnds s r l items name (some (.pos pos)) s'
  | missed {s' : Fat32FileSystem} (hnone : ∀ it ∈ items, ¬it.Begins name) :
    LookupEnds s r l items name none s'

theorem DirAtRest.lookup_ends (h : DirAtRest s r l)
    (hl : dirEntries s l = layout items ++ mark :: rest)
    (hm : mark 0 = 0) (hd : ¬IsDots name) (hs : Searchable name s.junk items) :
    ∃ o s', lookup r name s = .ok (o, s') ∧ LookupEnds s r l items name o s' := by
  have hscan := lookupScan_ends h hl hm hd hs
  obtain ⟨ip, hon, hsz⟩ := h.node
  have hfuel : minusOne / 32 + 2 = scanFuel := rfl
  rw [lookup, if_neg (mt .inl hd), if_neg (mt .inr hd), bind_of_ok (entryFuel_eq hon.node),
    get_bind, hsz, hfuel]
  generalize hq : lookupScan (readEntry r) name scanFuel s.junk s = q at hscan
  cases hscan with
  | missed s' hall hs' =>
    refine ⟨none, s', ?_, .missed hall⟩
    rw [bind_of_ok hq]
    rfl
  | found pre post it tmp n s₁ hsplit hP hall hs₁ _ =>
    cases it with
    | deleted e he => exact hP.elim
    | file f =>
      have hle : 0 + 32 * (layout (pre ++ [Item.file f])).length ≤ 4096 * l.length := by
        have hsize := congrArg List.length hl
        rw [length_dirEntries, List.length_append, hsplit, List.append_cons, Listed.layout_append,
          List.length_append] at hsize
        omega
      obtain ⟨s₂, hpos, hs₂⟩ := hs₁.rest.position
        (g := ⟨0 + 32 * (layout (pre ++ [Item.file f])).length, (Item.file f).last, tmp, n⟩) hle
      have hstay := hs₁.trans hs₂
      obtain ⟨iq, hiq, -⟩ := hstay.rest.node
      obtain ⟨s₃, hbuild, hnode⟩ := buildInode_spec f.short
        (s₁.posOf l (32 * (layout (pre ++ [Item.file f])).length)) hiq.node
      have hsame : s₁.posOf l (32 * (layout (pre ++ [Item.file f])).length) =
          s.posOf l (32 * (layout (pre ++ [Item.file f])).length) := by
        simp only [posOf, firstSectorOfCluster, hs₁.info]
      refine ⟨_, s₃, ?_, .found hsplit hP hall rfl fun hne => ?_⟩
      · rw [bind_of_ok hq, ← hsame]
        dsimp only
        rw [Nat.zero_add] at hpos ⊢
        rw [bind_of_ok hpos, Item.last, bind_of_ok hbuild]
        rfl
      · rw [← hsame] at hne ⊢
        rw [hnode, hstay.inodes_eq hne]

/-- `Lookup` finds the first file whose name begins with the name, in capitals or not. -/
theorem lookup_finds_first (h : DirAtRest s r l) (hl : dirEntries s l = layout items ++ mark :: rest)
    (hm : mark 0 = 0) (hd : ¬IsDots name) (hs : Searchable name s.junk items) :
    (∃ pre f post pos s', items = pre ++ .file f :: post ∧ (Item.file f).Begins name ∧
      (∀ it ∈ pre, ¬it.Begins name) ∧ pos = s.posOf l (32 * (layout (pre ++ [.file f])).length) ∧
      lookup r name s = .ok (some (.pos pos), s') ∧ (r ≠ .pos pos → s'.inode? (.pos pos) =
        some ((s.inodes pos).elim (inodeOf f.short pos r) fun iq => { iq with ref := iq.ref + 1 }))) ∨
      (∀ it ∈ items, ¬it.Begins name) ∧ ∃ s', lookup r name s = .ok (none, s') := by
  obtain ⟨o, s', hok, hends⟩ := h.lookup_ends hl hm hd hs
  cases hends with
  | found hsplit hbegins hpre hpos hnode =>
    exact .inl ⟨_, _, _, _, s', hsplit, hbegins, hpre, hpos, hok, hnode⟩
  | missed hnone => exact .inr ⟨hnone, s', hok⟩

theorem not_isDots_nameA : ¬IsDots nameA := not_or.mpr ⟨by decide +kernel, by decide +kernel⟩

theorem begins_entryA : (Item.file entryA).Begins nameA := by
  change lower nameA.chars <+: lower (untilNul entryA.bytes)
  decide +kernel

theorem searchable_oneFile : Searchable nameA oneFile.junk [.file entryA] where
  fits it hit := by
    rw [List.mem_singleton.mp hit]
    exact Nat.not_lt_zero 4
  decided it hit _ := by
    rw [List.mem_singleton.mp hit]
    exact .inr (.inl (by decide +kernel))
  not_deleted := by decide
  fresh it hit hlong := by
    cases hit
    exact hlong.elim

theorem lookup_finds_first_oneFile :
    ∃ s', lookup .root nameA oneFile = .ok (some (.pos 59392), s') := by
  obtain ⟨mark, rest, hm, hl⟩ := dirEntries_oneFile
  rcases lookup_finds_first dirAtRest_oneFile hl hm not_isDots_nameA searchable_oneFile with
    ⟨pre, f, post, pos, s', hsplit, -, -, rfl, hlook, -⟩ | ⟨hnone, -⟩
  · cases pre with
    | nil =>
      rw [List.nil_append, List.cons.injEq, Item.file.injEq] at hsplit
      obtain ⟨rfl, -⟩ := hsplit
      exact ⟨s', hlook⟩
    | cons it pre => simp at hsplit
  · exact absurd begins_entryA (hnone _ List.mem_cons_self)

theorem DirAtRest.posOf_eq (h : DirAtRest s r l) {k : ℕ} (hk : 0 < k)
    (hle : 32 * k ≤ 4096 * l.length) :
    ∃ hlt : (32 * k - 32) / 4096 < l.length, s.posOf l (32 * k) =
      s.info.clusterAddr l[(32 * k - 32) / 4096] + (32 * k - 32) % 4096 := by
  have hsmall : ∀ d c : ℕ, d * 512 + (c - 2) * 4096 + 4096 < 2 ^ 31 →
      (d + (c - 2) * 8) * 512 < 2 ^ 32 := by
    intro d c hlt
    linarith
  have hlt : (32 * k - 32) / 4096 < l.length := by omega
  have hin := h.range _ (List.getElem_mem hlt)
  have hend := hin.lt
  rw [Fat32Info.clusterAddr] at hend
  refine ⟨hlt, ?_⟩
  rw [posOf, List.getD_eq_getElem _ _ hlt, firstSectorOfCluster_eq h.geometry hin, sectorSize,
    Nat.mod_eq_of_lt (hsmall _ _ hend), Fat32Info.clusterAddr]
  ring

theorem posOf_lt_ne (h : DirAtRest s r l) {a b : ℕ} (hab : a < b) (hb : 32 * b ≤ 4096 * l.length)
    (ha : 0 < a) : s.posOf l (32 * a) ≠ s.posOf l (32 * b) := by
  obtain ⟨ip, hon, -⟩ := h.node
  have hnd := (hon.chains.chain _ rfl).nodup
  obtain ⟨hka, hpa⟩ := h.posOf_eq ha (by omega)
  obtain ⟨hkb, hpb⟩ := h.posOf_eq (by omega) hb
  have ha2 := (h.range _ (List.getElem_mem hka)).two_le
  have hb2 := (h.range _ (List.getElem_mem hkb)).two_le
  rw [Fat32Info.clusterAddr] at hpa hpb
  rw [hpa, hpb]
  intro heq
  have hsame : l[(32 * a - 32) / 4096] = l[(32 * b - 32) / 4096] := by omega
  have hidx := (List.Nodup.getElem_inj_iff hnd).mp hsame
  omega

/-- `Lookup` of the name that a file is listed with finds that file exactly when no file before it has a
name that begins so. -/
theorem lookup_own_iff (h : DirAtRest s r l) (hl : dirEntries s l = layout items ++ mark :: rest)
    (hm : mark 0 = 0) (hd : ¬IsDots name) (hs : Searchable name s.junk items)
    (hsplit : items = pre ++ .file f :: post) (hname : name.chars = untilNul f.bytes) :
    (∃ s', lookup r name s =
      .ok (some (.pos (s.posOf l (32 * (layout (pre ++ [.file f])).length))), s')) ↔
      ∀ it ∈ pre, ¬it.Begins name := by
  have hown : (Item.file f).Begins name := by
    rw [Item.Begins, hname]
  have hlen : ∀ (its its' : List Item) (g : FileEntry), items = its ++ .file g :: its' →
      0 < (layout (its ++ [.file g])).length ∧
        32 * (layout (its ++ [.file g])).length ≤ 4096 * l.length := by
    rintro its its' g rfl
    have hsize := congrArg List.length hl
    rw [length_dirEntries, List.length_append, List.append_cons, Listed.layout_append,
      List.length_append] at hsize
    have hle := Listed.length_items_le (its ++ [Item.file g])
    rw [List.length_append, List.length_singleton] at hle
    omega
  obtain ⟨o, s', hlook, hends⟩ := h.lookup_ends hl hm hd hs
  cases hends with
  | @found pre' post' f' pos _ hsplit' hbegins hall hpos' _ =>
    subst hpos'
    have hown' := hsplit
    rw [hsplit', List.append_eq_append_iff] at hsplit
    rcases hsplit with ⟨mid, hpre, hrest⟩ | ⟨mid, hpre, hrest⟩
    · rcases mid with _ | ⟨x, mid⟩
      · rw [List.append_nil] at hpre
        rw [List.nil_append, List.cons.injEq, Item.file.injEq] at hrest
        obtain ⟨rfl, -⟩ := hrest
        subst hpre
        exact iff_of_true ⟨s', hlook⟩ hall
      · rw [List.cons_append, List.cons.injEq] at hrest
        obtain ⟨rfl, -⟩ := hrest
        refine iff_of_false ?_ fun hall' => hall' _ (by rw [hpre]; simp) hbegins
        rintro ⟨s'', hlook'⟩
        rw [hlook] at hlook'
        have hpos : s.posOf l (32 * (layout (pre' ++ [Item.file f'])).length) =
            s.posOf l (32 * (layout (pre ++ [Item.file f])).length) := by
          rw [Except.ok.injEq, Prod.mk.injEq, Option.some.injEq, InodeRef.pos.injEq] at hlook'
          exact hlook'.1
        refine posOf_lt_ne h ?_ ?_ ?_ hpos
        · rw [hpre, Listed.layout_append, Listed.layout_append, List.append_cons pre' (Item.file f') mid,
            Listed.layout_append, Listed.layout_append]
          simp only [List.length_append]
          have hlast := Listed.length_items_le [Item.file f]
          rw [List.length_singleton] at hlast
          omega
        · exact (hlen pre post f hown').2
        · exact (hlen pre' post' f' hsplit').1
    · rcases mid with _ | ⟨x, mid⟩
      · rw [List.append_nil] at hpre
        rw [List.nil_append, List.cons.injEq, Item.file.injEq] at hrest
        obtain ⟨rfl, -⟩ := hrest
        subst hpre
        exact iff_of_true ⟨s', hlook⟩ hall
      · rw [List.cons_append, List.cons.injEq] at hrest
        obtain ⟨rfl, -⟩ := hrest
        exact absurd hown (hall _ (by rw [hpre]; simp))
  | missed hnone => exact absurd hown (hnone _ (by rw [hsplit]; simp))

theorem lookup_own_iff_oneFile : ∃ s', lookup .root nameA oneFile = .ok (some (.pos 59392), s') := by
  obtain ⟨mark, rest, hm, hl⟩ := dirEntries_oneFile
  exact (lookup_own_iff dirAtRest_oneFile hl hm not_isDots_nameA searchable_oneFile
    (show [Item.file entryA] = [] ++ .file entryA :: [] from rfl) (by decide +kernel)).mpr
      fun it hit => absurd hit List.not_mem_nil

end Lookup

end Fat32FileSystem

end StartOS
