import StartOS.Fs.DirUnlink

/-! # Adding a name to a directory

`Create` takes the first run of free entries that is long enough, deleted ones or those behind the
end mark. The new entries are those of a file with the name, and a cluster that was free is its chain.
-/

namespace StartOS.Fat32FileSystem

open Linked Hoare BufferLayer

variable {s s' : Fat32FileSystem} {r : InodeRef} {ip : Inode} {l : List ℕ}
  {items prev pre post : List Item}
  {mark : ByteMem} {A D E L tail tail' : List ByteMem} {name : CString} {it : Item} {f : FileEntry}
  {I : Fat32FileSystem → Prop} {n k off fuel : ℕ}

def Item.file? : Item → Option FileEntry
  | deleted _ _ => none
  | file f => some f

def files (items : List Item) : List FileEntry := items.filterMap Item.file?

section Room

/-- There is a run of `n` free entries, `k` of them before the items and at most `t` behind them. -/
def HasRoom (n t : ℕ) : ℕ → List Item → Prop
  | k, [] => n ≤ k + t
  | k, .deleted _ _ :: items => k + 1 = n ∨ HasRoom n t (k + 1) items
  | _, .file _ :: items => HasRoom n t 0 items

theorem hasRoom_of_le {t : ℕ} (h : n ≤ t) : HasRoom n t k items := by
  induction items generalizing k with
  | nil => exact h.trans (Nat.le_add_left t k)
  | cons it items ih =>
    cases it with
    | deleted e he => exact .inr ih
    | file f => exact ih

def FreeRunAt (E : List ByteMem) (n p : ℕ) : Prop := ∀ i < n, ∃ e, E[p + i]? = some e ∧ FreeEntry e

/-- The directory with its first run of `n` free entries taken out. -/
structure FreeRun (n : ℕ) (items : List Item) (tail : List ByteMem) (pre : List Item)
    (D : List ByteMem) (post : List Item) (tail' : List ByteMem) : Prop where
  entries : layout items ++ tail = layout pre ++ D ++ (layout post ++ tail')
  length : D.length = n
  least : IsLeast {p | FreeRunAt (layout items ++ tail) n p} (layout pre).length
  sub : (pre ++ post).Sublist items
  files_eq : files items = files pre ++ files post
  behind : tail' <:+ tail
  ne_nil : tail' ≠ []

theorem files_append (pre its : List Item) : files (pre ++ its) = files pre ++ files its :=
  List.filterMap_append

theorem files_deleted (h : ∀ it ∈ items, it.file? = none) : files items = [] :=
  List.filterMap_eq_nil_iff.mpr h

theorem length_layout_deleted (h : ∀ it ∈ items, it.file? = none) :
    (layout items).length = items.length := by
  induction items with
  | nil => rfl
  | cons it items ih =>
    rw [layout_cons, List.length_append, ih fun x hx => h x (List.mem_cons_of_mem it hx),
      List.length_cons]
    cases it with
    | deleted e he => rw [Item.entries, List.length_singleton, Nat.add_comm]
    | file f => exact absurd (h _ List.mem_cons_self) (Option.some_ne_none f)

theorem freeRunAt_zero (hD : ∀ e ∈ D, FreeEntry e) : FreeRunAt (D ++ E) D.length 0 := by
  intro i hi
  refine ⟨D[i], ?_, hD _ (List.getElem_mem hi)⟩
  rw [Nat.zero_add, List.getElem?_append_left hi, List.getElem?_eq_getElem hi]

theorem freeRunAt_append : FreeRunAt (L ++ E) n (L.length + k) ↔ FreeRunAt E n k := by
  refine forall₂_congr fun i _ => ?_
  rw [Nat.add_assoc, List.getElem?_append_right (Nat.le_add_right _ _), Nat.add_sub_cancel_left]

theorem FreeRunAt.lt (h : FreeRunAt E n k) {x : ℕ} {e : ByteMem} (hx : E[x]? = some e)
    (he : ¬FreeEntry e) (hk : k ≤ x) : k + n ≤ x := by
  by_contra hlt
  obtain ⟨d, hd, hfree⟩ := h (x - k) (by omega)
  rw [Nat.add_sub_cancel' hk, hx, Option.some.injEq] at hd
  exact he (hd ▸ hfree)

theorem isLeast_append (h : IsLeast {p | FreeRunAt E n p} k)
    (hL : ∀ q < L.length, ¬FreeRunAt (L ++ E) n q) :
    IsLeast {p | FreeRunAt (L ++ E) n p} (L.length + k) := by
  refine ⟨freeRunAt_append.mpr h.1, fun q hq => ?_⟩
  have hle : L.length ≤ q := not_lt.mp fun hlt => hL q hlt hq
  obtain ⟨d, rfl⟩ := Nat.exists_eq_add_of_le hle
  exact Nat.add_le_add_left (h.2 (freeRunAt_append.mp hq)) _

theorem isLeast_zero (hE : E = D ++ L) (hn : D.length = n) (hD : ∀ e ∈ D, FreeEntry e) :
    IsLeast {p | FreeRunAt E n p} 0 := by
  subst hE hn
  exact ⟨freeRunAt_zero hD, fun _ _ => Nat.zero_le _⟩

theorem free_layout_deleted (h : ∀ it ∈ items, it.file? = none) :
    ∀ e ∈ layout items, FreeEntry e := by
  induction items with
  | nil => exact fun e he => absurd he List.not_mem_nil
  | cons it items ih =>
    intro e he
    rw [layout_cons, List.mem_append] at he
    rcases he with he | he
    · cases it with
      | deleted d hd =>
        rw [List.mem_singleton.mp he]
        exact .inl hd
      | file f => exact absurd (h _ List.mem_cons_self) (Option.some_ne_none f)
    · exact ih (fun x hx => h x (List.mem_cons_of_mem it hx)) e he

theorem FreeRun.prepend (h : FreeRun n items tail pre D post tail') (its : List Item)
    (hits : ∀ q < (layout its).length, ¬FreeRunAt (layout its ++ (layout items ++ tail)) n q) :
    FreeRun n (its ++ items) tail (its ++ pre) D post tail' where
  entries := by
    rw [Listed.layout_append, Listed.layout_append, List.append_assoc, h.entries]
    simp only [List.append_assoc]
  length := h.length
  least := by
    rw [Listed.layout_append, Listed.layout_append, List.append_assoc, List.length_append]
    exact isLeast_append h.least hits
  sub := by
    rw [List.append_assoc]
    exact h.sub.append_left its
  files_eq := by rw [files_append, files_append, h.files_eq, List.append_assoc]
  behind := h.behind
  ne_nil := h.ne_nil

theorem sequenceByte_not_free (h₁ : 1 ≤ k) (hk : k ≤ n) (h : n ≤ 20) :
    ¬(sequenceByte n k = 0xe5 ∨ sequenceByte n k = 0) := by
  have hand := sequenceByte_and h₁ hk h
  rintro (heq | heq)
  · rw [heq] at hand
    have hnum : (0xe5 &&& 0xbf : UInt8).toNat = 165 := rfl
    omega
  · rw [heq] at hand
    have hnum : (0 &&& 0xbf : UInt8).toNat = 0 := rfl
    omega

theorem FileEntry.not_free (f : FileEntry) {e : ByteMem} (he : e ∈ (Item.file f).entries) :
    ¬FreeEntry e := by
  rw [Item.entries, List.mem_append, List.mem_singleton] at he
  rcases he with he | rfl
  · have hseq : e 0 ∈ f.longs.map fun e => e 0 := List.mem_map_of_mem he
    rw [f.sequence, List.mem_map] at hseq
    obtain ⟨j, hj, hb⟩ := hseq
    rw [List.mem_range] at hj
    rw [FreeEntry, ← hb]
    exact sequenceByte_not_free (by omega) (by omega) f.length_le
  · exact not_or.mpr ⟨f.not_deleted, f.not_mark⟩

/-- A run of free entries is not begun in a file, nor in the few deleted entries before one. -/
theorem not_freeRunAt_file (hprev : ∀ it ∈ prev, it.file? = none) (hlt : prev.length < n)
    (f : FileEntry) {q : ℕ} (hq : q < (layout (prev ++ [.file f])).length) :
    ¬FreeRunAt (layout (prev ++ [.file f]) ++ E) n q := by
  have hlay : layout (prev ++ [Item.file f]) = layout prev ++ (Item.file f).entries := by
    rw [Listed.layout_append, layout_cons, show layout [] = [] from rfl, List.append_nil]
  rw [hlay, List.length_append, length_layout_deleted hprev] at hq
  intro hfree
  have hpos : 0 < (Item.file f).entries.length := by
    rw [Item.entries, List.length_append, List.length_singleton]
    omega
  obtain ⟨i, hi, hx⟩ : ∃ i < (Item.file f).entries.length, max q prev.length = prev.length + i :=
    ⟨max q prev.length - prev.length, by omega, by omega⟩
  have hget : (layout (prev ++ [Item.file f]) ++ E)[max q prev.length]? =
      some (Item.file f).entries[i] := by
    rw [hlay, List.append_assoc, List.getElem?_append_right (by rw [length_layout_deleted hprev]; omega),
      length_layout_deleted hprev, hx, Nat.add_sub_cancel_left, List.getElem?_append_left hi,
      List.getElem?_eq_getElem hi]
  have hend := hfree.lt hget (f.not_free (List.getElem_mem hi)) (le_max_left _ _)
  omega

end Room

section Find

theorem findFreeLoop_used (fuel k : ℕ) (hn : 0 < n) (hg : Gives I (readEntry r) off (L ++ tail))
    (hs : I s)
    (hL : ∀ e ∈ L, ¬FreeEntry e) (hne : L ≠ []) : ∃ s', I s' ∧
    findFreeLoop r n (L.length + fuel) off k s =
      findFreeLoop r n fuel (off + 32 * L.length) 0 s' := by
  induction L generalizing off k s with
  | nil => exact absurd rfl hne
  | cons e L ih =>
    obtain ⟨s₁, hread, hs₁⟩ := Gives.head hg hs
    have hused : ¬(e 0 = 0xe5 ∨ e 0 = 0) := hL e List.mem_cons_self
    have hturn : findFreeLoop r n ((e :: L).length + fuel) off k s =
        findFreeLoop r n (L.length + fuel) (off + 32) 0 s₁ := by
      rw [List.length_cons, Nat.add_right_comm, findFreeLoop, bind_of_ok hread]
      dsimp only
      rw [if_neg hused, if_neg hn.ne]
    rw [hturn]
    rcases List.eq_nil_or_concat L with rfl | ⟨L', x, rfl⟩
    · exact ⟨s₁, hs₁, by rw [List.length_nil, Nat.zero_add]; rfl⟩
    · obtain ⟨s', hs', hrun⟩ := ih 0 (Gives.tail hg) hs₁
        (fun x hx => hL x (List.mem_cons_of_mem e hx)) (by simp)
      refine ⟨s', hs', hrun.trans ?_⟩
      rw [List.length_cons, Nat.mul_succ, Nat.add_assoc, Nat.add_comm 32]

theorem findFreeLoop_free {e : ByteMem} (n fuel k : ℕ) (hg : Gives I (readEntry r) off (e :: L))
    (hs : I s)
    (he : FreeEntry e) : ∃ s', I s' ∧ findFreeLoop r n (fuel + 1) off k s =
      if k + 1 = n then .ok (off + 32 - n * 32, s')
      else findFreeLoop r n fuel (off + 32) (k + 1) s' := by
  obtain ⟨s₁, hread, hs₁⟩ := hg.head hs
  have hfree : e 0 = 0xe5 ∨ e 0 = 0 := he
  refine ⟨s₁, hs₁, ?_⟩
  rw [findFreeLoop, bind_of_ok hread]
  dsimp only
  rw [if_pos hfree]
  split
  · rename_i heq
    rw [heq]
    rfl
  · rfl

theorem findFreeLoop_behind (hg : Gives I (readEntry r) off tail) (hs : I s)
    (ht : ∀ e ∈ tail, FreeEntry e)
    (hk : k < n) (hroom : n ≤ k + tail.length) (hoff : 32 * k ≤ off) (hfuel : n - k ≤ fuel) :
    ∃ s', I s' ∧ findFreeLoop r n fuel off k s = .ok (off - 32 * k, s') := by
  induction tail generalizing off k fuel s with
  | nil =>
    rw [List.length_nil] at hroom
    omega
  | cons e tail ih =>
    obtain ⟨fuel, rfl⟩ := Nat.exists_eq_succ_of_ne_zero (show fuel ≠ 0 by omega)
    obtain ⟨s₁, hs₁, hturn⟩ := findFreeLoop_free n fuel k hg hs (ht e List.mem_cons_self)
    rw [hturn]
    split
    · exact ⟨s₁, hs₁, by rw [show off + 32 - n * 32 = off - 32 * k by omega]⟩
    · rename_i hne
      rw [List.length_cons] at hroom
      obtain ⟨s', hs', hrun⟩ := ih (Gives.tail hg) hs₁ (fun x hx => ht x (List.mem_cons_of_mem e hx))
        (show k + 1 < n by omega) (by omega) (by omega) (show n - (k + 1) ≤ fuel by omega)
      exact ⟨s', hs', hrun.trans (by rw [show off + 32 - 32 * (k + 1) = off - 32 * k by omega])⟩

/-- The deleted entries at the end of the items and the first entries behind them. -/
theorem freeRun_behind (ht : ∀ e ∈ tail, FreeEntry e) (hprev : ∀ it ∈ prev, it.file? = none)
    (hlt : prev.length < n) (hroom : n ≤ prev.length + (tail.length - 1)) :
    FreeRun n prev tail [] (layout prev ++ tail.take (n - prev.length)) []
      (tail.drop (n - prev.length)) := by
  have hrun : layout prev ++ tail =
      layout prev ++ tail.take (n - prev.length) ++ tail.drop (n - prev.length) := by
    rw [List.append_assoc, List.take_append_drop]
  have hlen : (layout prev ++ tail.take (n - prev.length)).length = n := by
    rw [List.length_append, length_layout_deleted hprev, List.length_take]
    omega
  refine ⟨hrun, hlen, isLeast_zero hrun hlen fun e he => ?_, List.nil_sublist _,
    files_deleted hprev, List.drop_suffix _ _, ?_⟩
  · rcases List.mem_append.mp he with he | he
    · exact free_layout_deleted hprev e he
    · exact ht e (List.mem_of_mem_take he)
  · exact List.ne_nil_of_length_pos (by rw [List.length_drop]; omega)

/-- As many deleted entries as are asked for. -/
theorem freeRun_deleted (hprev : ∀ it ∈ prev, it.file? = none) (hlen : prev.length = n)
    (hne : tail ≠ []) : FreeRun n (prev ++ items) tail [] (layout prev) items tail := by
  have hrun : layout (prev ++ items) ++ tail = layout prev ++ (layout items ++ tail) := by
    rw [Listed.layout_append, List.append_assoc]
  have hn : (layout prev).length = n := by rw [length_layout_deleted hprev, hlen]
  refine ⟨hrun, hn, isLeast_zero hrun hn (free_layout_deleted hprev),
    List.sublist_append_right _ _, ?_, List.suffix_rfl, hne⟩
  rw [files_append, files_deleted hprev, List.nil_append]
  rfl

/-- The loop takes a run of free entries; `prev` are the deleted entries it has counted. -/
theorem findFreeLoop_finds (hn : 0 < n) (hg : Gives I (readEntry r) off (layout items ++ tail))
    (hs : I s)
    (ht : ∀ e ∈ tail, FreeEntry e) (hprev : ∀ it ∈ prev, it.file? = none) (hlt : prev.length < n)
    (hroom : HasRoom n (tail.length - 1) prev.length items) (hne : tail ≠ [])
    (hoff : off = 32 * (k + prev.length))
    (hfuel : (layout items).length + n ≤ fuel) :
    ∃ pre D post tail' s', I s' ∧ FreeRun n (prev ++ items) tail pre D post tail' ∧
      findFreeLoop r n fuel off prev.length s = .ok (32 * (k + (layout pre).length), s') := by
  induction items generalizing prev k off fuel s with
  | nil =>
    have hpos := List.length_pos_of_ne_nil hne
    have hroom' : n ≤ prev.length + (tail.length - 1) := hroom
    rw [show layout [] = [] from rfl, List.nil_append] at hg
    rw [show (layout []).length = 0 from rfl] at hfuel
    obtain ⟨s', hs', hrun⟩ := findFreeLoop_behind (r := r) (n := n) (k := prev.length) hg hs ht hlt
      (by omega)
      (by omega) (show n - prev.length ≤ fuel by omega)
    refine ⟨[], layout prev ++ tail.take (n - prev.length), [], tail.drop (n - prev.length), s',
      hs', ?_, ?_⟩
    · rw [List.append_nil]
      exact freeRun_behind ht hprev hlt hroom'
    · rw [hrun, hoff]
      exact congrArg (fun x => Except.ok (x, s'))
        (by rw [show (layout []).length = 0 from rfl]; omega)
  | cons it items ih =>
    rw [layout_cons, List.append_assoc] at hg
    rw [layout_cons, List.length_append] at hfuel
    cases it with
    | deleted e he =>
      have hitem : (Item.deleted e he).entries.length = 1 := rfl
      obtain ⟨fuel, rfl⟩ := Nat.exists_eq_succ_of_ne_zero (show fuel ≠ 0 by omega)
      obtain ⟨s₁, hs₁, hturn⟩ := findFreeLoop_free n fuel prev.length (e := e) hg hs (.inl he)
      have hprev' : ∀ it ∈ prev ++ [Item.deleted e he], it.file? = none := fun it hit => by
        rcases List.mem_append.mp hit with hit | hit
        · exact hprev it hit
        · rw [List.mem_singleton.mp hit]
          rfl
      have hlen : (prev ++ [Item.deleted e he]).length = prev.length + 1 := by
        rw [List.length_append, List.length_singleton]
      rw [hturn, List.append_cons]
      split
      · rename_i heq
        refine ⟨[], layout (prev ++ [Item.deleted e he]), items, tail, s₁, hs₁,
          freeRun_deleted hprev' (hlen.trans heq) hne, ?_⟩
        exact congrArg (fun x => Except.ok (x, s₁))
          (by rw [show (layout []).length = 0 from rfl]; omega)
      · rename_i hneq
        have hroom' := Or.resolve_left hroom hneq
        rw [← hlen] at hroom' ⊢
        exact ih (Gives.tail hg) hs₁ hprev' (by omega) hroom' (by omega) (by omega)
    | file f =>
      have hnil : ∀ it ∈ ([] : List Item), it.file? = none :=
        fun it hit => absurd hit List.not_mem_nil
      have hentries : (Item.file f).entries ≠ [] := by
        rw [Item.entries]
        simp
      obtain ⟨fuel, rfl⟩ := Nat.exists_eq_add_of_le
        (show (Item.file f).entries.length ≤ fuel by omega)
      obtain ⟨s₁, hs₁, hturn⟩ := findFreeLoop_used fuel prev.length hn hg hs
        (fun e he => f.not_free he) hentries
      rw [hturn]
      obtain ⟨pre, D, post, tail', s', hs', hrun, hok⟩ :=
        ih (k := k + prev.length + (Item.file f).entries.length)
        (Gives.append hg) hs₁ hnil hn hroom (by rw [List.length_nil]; omega)
        (show (layout items).length + n ≤ fuel by omega)
      refine ⟨prev ++ Item.file f :: pre, D, post, tail', s', hs', ?_, hok.trans ?_⟩
      · have hall := hrun.prepend (prev ++ [Item.file f]) fun q hq =>
          not_freeRunAt_file hprev hlt f hq
        rwa [List.nil_append, List.append_assoc, List.append_assoc] at hall
      · rw [Listed.layout_append, layout_cons, List.length_append, List.length_append,
          length_layout_deleted hprev]
        exact congrArg (fun x => Except.ok (x, s')) (by omega)

end Find

section Entry

theorem toUpCase_ne {c d : UInt8} (hd : d.toNat < 0x41 ∨ 0x5a < d.toNat) (h : c ≠ d) :
    toUpCase c ≠ d := by
  rw [toUpCase]
  split
  · rename_i hc
    have hlow := UInt8.le_iff_toNat_le.mp hc.1
    have hhigh := UInt8.le_iff_toNat_le.mp hc.2
    rintro rfl
    rw [UInt8.toNat_sub_of_le _ _ (UInt8.le_iff_toNat_le.mpr ?_)] at hd
    · simp only [UInt8.reduceToNat] at hlow hhigh hd
      omega
    · simp only [UInt8.reduceToNat] at hlow ⊢
      omega
  · exact h

theorem baseLength_pos (h : 0 < name.baseLength) : 0 < name.strlen := by
  rw [CString.baseLength] at h
  cases hdot : name.strrchr with
  | none =>
    rw [hdot] at h
    exact h
  | some dot => exact Nat.zero_lt_of_lt (CString.lastDot_lt hdot)

theorem shortName_first {entry : ByteMem} : (shortName entry name).1 0 =
    if 0 < name.baseLength then toUpCase (name.bytes 0) else 0x20 := by
  rw [shortName_apply, rawName_base (by omega)]
  by_cases hpos : 0 < name.baseLength
  · rw [if_pos hpos, if_pos hpos, if_pos hpos]
    split
    · rfl
    · rfl
  · rw [if_neg hpos, if_neg (by omega), if_neg hpos, if_neg hpos]

theorem shortName_in_use (entry : ByteMem) (h : name.bytes 0 ≠ 0xe5) :
    ¬FreeEntry (shortName entry name).1 := by
  rw [FreeEntry, shortName_first]
  split
  · rename_i hpos
    exact not_or.mpr ⟨toUpCase_ne (.inr (by decide)) h,
      toUpCase_ne (.inl (by decide)) (name.ne_nul 0 (baseLength_pos hpos))⟩
  · decide

theorem fillMeta_name {entry : ByteMem} {cluster mode i : ℕ} {t : Stamp} (hi : i < 11) :
    fillMeta entry cluster mode t i = entry i := by
  simp only [fillMeta]
  rw [ByteMem.writeLE_of_not_mem (by omega), ByteMem.writeLE_of_not_mem (by omega),
    ByteMem.writeLE_of_not_mem (by omega), ByteMem.writeLE_of_not_mem (by omega),
    ByteMem.writeLE_of_not_mem (by omega), ByteMem.writeLE_of_not_mem (by omega),
    ByteMem.writeLE_of_not_mem (by omega), ByteMem.writeLE_of_not_mem (by omega),
    ByteMem.writeLE_of_not_mem (by omega)]

theorem fillMeta_attrib {entry : ByteMem} {cluster mode : ℕ} {t : Stamp} :
    fillMeta entry cluster mode t 11 = mkattr mode := by
  simp only [fillMeta]
  rw [ByteMem.writeLE_of_not_mem (by omega), ByteMem.writeLE_of_not_mem (by omega),
    ByteMem.writeLE_of_not_mem (by omega), ByteMem.writeLE_of_not_mem (by omega),
    ByteMem.writeLE_of_not_mem (by omega), ByteMem.writeLE_of_not_mem (by omega),
    ByteMem.writeLE_of_not_mem (by omega), ByteMem.writeLE_of_not_mem (by omega), ByteMem.writeLE,
    ByteMem.blit_of_mem le_rfl (by omega), Nat.sub_self, pow_zero, Nat.div_one, UInt8.ofNat_toNat]

theorem getStartCluster_fillMeta {entry : ByteMem} {cluster mode : ℕ} {t : Stamp}
    (h : cluster < 2 ^ 32) :
    getStartCluster (fillMeta entry cluster mode t) = cluster := by
  have hhigh : (fillMeta entry cluster mode t).readLE 20 2 = cluster / 2 ^ 16 := by
    simp only [fillMeta]
    rw [ByteMem.readLE_writeLE_disjoint (by omega), ByteMem.readLE_writeLE]
    omega
  have hlow : (fillMeta entry cluster mode t).readLE 26 2 = cluster % 2 ^ 16 := by
    simp only [fillMeta]
    rw [ByteMem.readLE_writeLE_disjoint (by omega), ByteMem.readLE_writeLE_disjoint (by omega),
      ByteMem.readLE_writeLE]
    omega
  rw [getStartCluster, hhigh, hlow]
  omega

theorem getStartCluster_entryBytes (e : ByteMem) :
    getStartCluster (entryBytes e) = getStartCluster e := by
  have hin : ∀ a x, x < a + 2 → a + 2 ≤ 32 → entryBytes e x = e x := fun a x hx ha =>
    if_pos (hx.trans_le ha)
  rw [getStartCluster, getStartCluster, ByteMem.readLE_congr fun x _ hx => hin 20 x hx (by norm_num),
    ByteMem.readLE_congr fun x _ hx => hin 26 x hx (by norm_num)]

end Entry

section Write

theorem DirAtRest.claims (h : DirAtRest s r l)
    (hrange : ∀ c, 2 ≤ c → s.info.InCache c → s.info.InRange c)
    (hfree : ∃ c, s.Free c) : ∃ c s', s.Free c ∧ allocCluster s = .ok (c, s') ∧
      Rewritten s r l [c] (dirEntries s l)
        (fun d => if d = c then endOfCluster else s.entry d) s' := by
  obtain ⟨ip, hon, -⟩ := h.node
  rcases allocCluster_cases h.geometry.toFatGeometry with ⟨c, hc, -, hok⟩ | ⟨-, hno⟩
  · have hin := hrange c hc.two_le hc.inCache
    have hdisk : ∀ y, ¬s.info.InCluster c y → (s.claim c).disk y = s.disk y := fun y hy =>
      foldl_clearCluster_of_not_mem (l := [c]) h.geometry (by simpa using hin) (by simpa using hy) _
    have hout : ∀ d ∈ l, d ≠ c := fun d hd heq => hon.not_free hd (heq ▸ hc)
    have hentry : (s.claim c).entry = fun d => if d = c then endOfCluster else s.entry d :=
      funext fun d => entry_claim
    refine ⟨c, s.claim c, hc, hok,
      h.beside rfl rfl rfl (fun q => by cases q <;> rfl) hentry (fun d hd => ?_)
      (fun d hd x hx => hdisk _ fun hin' => ?_) fun y hy _ =>
        hdisk y (hy c (List.mem_singleton_self c))⟩
    · exact if_neg (hout d hd)
    · exact hout d hd (Fat32Info.InCluster.eq ⟨by omega, by omega⟩ hin'
        (h.range d hd).two_le hc.two_le)
  · obtain ⟨c, hc⟩ := hfree
    exact absurd hc (hno c)

theorem shortName_length {entry : ByteMem} : (shortName entry name).2 = name.baseLength := by
  rw [shortName, CString.baseLength]
  cases name.strrchr <;> rfl

theorem DirAtRest.fillsShort (h : DirAtRest s r l) (hbase : name.baseLength ≤ 32) (cluster mode : ℕ) :
    ∃ s', fillShortFile (fun _ _ => 0) name cluster mode s =
      .ok (fillMeta (shortName (fun _ => 0) name).1 cluster mode (s.stamps s.stampNo), s') ∧
      Rewritten s r l [] (dirEntries s l) s.entry s' := by
  refine ⟨{ s with stampNo := s.stampNo + 1 }, ?_,
    h.beside rfl rfl rfl (fun q => by cases q <;> rfl) rfl (fun _ _ => rfl) (fun _ _ _ _ => rfl)
      fun _ _ _ => rfl⟩
  have hle : ¬(shortName (fun _ => 0) name).2 > 32 := by
    rw [shortName_length]
    omega
  have hstamp : stamp s = .ok (s.stamps s.stampNo, { s with stampNo := s.stampNo + 1 }) := rfl
  rw [fillShortFile, bind_of_ok hstamp]
  dsimp only
  rw [if_neg hle]
  rfl

/-- The loop of `Create` writes the long entries, from the last to the first. -/
theorem DirAtRest.writesLongs {B C : List ByteMem} (h : DirAtRest s r l) (name : CString)
    (checksum : UInt8) (seq num : ℕ)
    (ha : OwnApart s r l) (hE : dirEntries s l = A ++ B ++ C)
    (hoff : B ≠ [] → off + 32 = 32 * (A ++ B).length) :
    ∃ s', createLoop r name checksum num B.length seq off s = .ok ((), s') ∧ Rewritten s r l l
      (A ++ ((List.range B.length).map fun j =>
          entryBytes (longEntry name checksum num (seq + j))).reverse ++ C)
      s.entry s' := by
  induction B using List.reverseRecOn generalizing s C off seq with
  | nil =>
    rw [List.length_nil, List.range_zero, List.map_nil, List.reverse_nil, ← hE]
    exact ⟨s, rfl, h.stays.rewritten h⟩
  | append_singleton B e ih =>
    have hoff' := hoff (by simp)
    simp only [List.length_append, List.length_singleton] at hoff'
    obtain ⟨ip, hon, -⟩ := h.node
    have hlen := hon.length_le
    have hsize := congrArg List.length hE
    simp only [length_dirEntries, List.length_append, List.length_singleton] at hsize
    obtain rfl : off = 32 * (A ++ B).length := by
      rw [List.length_append]
      omega
    have hk : (A ++ B).length < 128 * l.length := by
      rw [List.length_append]
      omega
    have hE' : dirEntries s l = (A ++ B) ++ e :: C := by
      rw [hE]
      simp only [List.append_assoc, List.singleton_append]
    obtain ⟨s₁, hwrite, hs₁⟩ := h.writes ha hk (longEntry name checksum num seq)
    rw [hE', List.set_append_right _ _ le_rfl, Nat.sub_self, List.set_cons_zero] at hs₁
    have hnext : B ≠ [] → (32 * (A ++ B).length + 2 ^ 32 - 32) % 2 ^ 32 + 32 = 32 * (A ++ B).length :=
        fun hne => by
      have hpos := List.length_pos_of_ne_nil hne
      rw [List.length_append] at hk ⊢
      omega
    obtain ⟨s₂, hloop, hs₂⟩ := ih hs₁.rest (seq + 1) (ha.rewritten hs₁) hs₁.entries hnext
    refine ⟨s₂, ?_, ?_⟩
    · rw [List.length_append, List.length_singleton, createLoop, bind_of_ok hwrite]
      exact hloop
    · have hall := hs₁.trans hs₂
      rw [hs₁.table] at hall
      have hmap : ((List.range B.length).map fun j =>
            entryBytes (longEntry name checksum num (seq + 1 + j))) =
          (List.range B.length).map fun j =>
            entryBytes (longEntry name checksum num (seq + (j + 1))) :=
        List.map_congr_left fun j _ => by rw [Nat.add_assoc, Nat.add_comm 1 j]
      rw [hmap] at hall
      rwa [List.length_append, List.length_singleton, List.range_succ_eq_map, List.map_cons,
        List.map_map,
        List.reverse_cons, Nat.add_zero, List.append_assoc A, List.append_assoc, List.singleton_append,
        ← List.append_assoc A]

end Write

section Name

theorem entryBytes_at {e : ByteMem} {x : ℕ} (hx : x < 32) : entryBytes e x = e x := if_pos hx

theorem charPos_lt {i : ℕ} (hi : i < 13) : charPos i < 32 := by
  rw [charPos]
  split
  · omega
  · split
    · omega
    · omega

variable {checksum : UInt8} {short : ByteMem}

theorem long_attrib_longsFrom {e : ByteMem}
    (he : e ∈ (longsFrom name checksum n k).map entryBytes) : e 11 = 0x0f := by
  obtain ⟨x, hx, rfl⟩ := List.mem_map.mp he
  obtain ⟨seq, -, -, rfl⟩ := mem_longsFrom.mp hx
  exact (entryBytes_at (by norm_num)).trans longEntry_attrib

theorem sequence_longsFrom : ((longsFrom name checksum n k).map entryBytes).map (fun e => e 0) =
    (List.range k).map fun j => sequenceByte n (k - j) := by
  rw [List.map_map, ← map_sequence_longsFrom]
  rfl

theorem length_longs : ((longsFrom name checksum n k).map entryBytes).length = k := by
  rw [List.length_map, length_longsFrom]

theorem sequence_longs : ((longsFrom name checksum n n).map entryBytes).map (fun e => e 0) =
    (List.range ((longsFrom name checksum n n).map entryBytes).length).map fun j =>
      sequenceByte ((longsFrom name checksum n n).map entryBytes).length
        (((longsFrom name checksum n n).map entryBytes).length - j) := by
  rw [length_longs, sequence_longsFrom]

theorem length_longs_le (h : name.strlen ≤ 260) :
    ((longsFrom name checksum name.lfnNum name.lfnNum).map entryBytes).length ≤ 20 := by
  rw [length_longs, CString.lfnNum]
  omega

/-- The entries `Create` makes of a name and its short entry. -/
def namedFile (name : CString) (short : ByteMem) (h : name.strlen ≤ 260) (ha : short 11 ≠ 0x0f)
    (hu : ¬FreeEntry short) : FileEntry where
  longs := (longsFrom name (fatChecksum short) name.lfnNum name.lfnNum).map entryBytes
  short := short
  long_attrib _ := long_attrib_longsFrom
  sequence := sequence_longs
  length_le := length_longs_le h
  short_attrib := ha
  not_deleted heq := hu (.inl heq)
  not_mark heq := hu (.inr heq)

theorem namedFile_longs {h : name.strlen ≤ 260} {ha : short 11 ≠ 0x0f} {hu : ¬FreeEntry short} :
    (namedFile name short h ha hu).longs = ((List.range name.lfnNum).map fun j =>
      entryBytes (longEntry name (fatChecksum short) name.lfnNum (1 + j))).reverse := by
  change (longsFrom name (fatChecksum short) name.lfnNum name.lfnNum).map entryBytes = _
  rw [longsFrom_eq, List.map_reverse, List.map_map]
  rfl

theorem flatMap_pieces (g : ℕ → UInt8) :
    ((List.range n).flatMap fun j => (List.range 13).map fun i => g (13 * j + i)) =
    (List.range (13 * n)).map g := by
  induction n with
  | zero => rfl
  | succ n ih =>
    have hlast : List.range (n + 1) = List.range n ++ [n] := List.range_succ
    rw [hlast, List.flatMap_append, ih, List.flatMap_singleton, Nat.mul_succ, List.range_add,
      List.map_append, List.map_map]
    rfl

theorem chars_longs : ((longsFrom name checksum n k).map entryBytes).reverse.flatMap chars =
    (List.range (13 * k)).map name.bytes := by
  rw [longsFrom_eq, List.map_reverse, List.reverse_reverse, List.map_map, List.flatMap_map,
    ← flatMap_pieces]
  refine List.flatMap_congr fun j _ => List.map_congr_left fun i hi => ?_
  have hi' := List.mem_range.mp hi
  rw [Function.comp_apply, entryBytes_at (charPos_lt hi'), longEntry_charPos _ _ hi',
    Nat.add_sub_cancel_left]

theorem untilNul_bytes {m : ℕ} (h : name.strlen ≤ m) :
    untilNul ((List.range m).map name.bytes) = name.chars := by
  obtain ⟨d, rfl⟩ := Nat.exists_eq_add_of_le h
  have hchars : ∀ c ∈ name.chars, (decide (c ≠ 0)) = true := fun c hc => by
    obtain ⟨i, hi, rfl⟩ := List.mem_map.mp hc
    exact decide_eq_true (name.ne_nul i (List.mem_range.mp hi))
  rw [List.range_add, List.map_append, ← CString.chars, untilNul, List.takeWhile_append_of_pos hchars]
  cases d with
  | zero => rw [List.range_zero, List.map_nil, List.map_nil, List.takeWhile_nil, List.append_nil]
  | succ d =>
    rw [List.range_succ_eq_map, List.map_cons, List.map_cons, Nat.add_zero, List.takeWhile_cons,
      name.nul]
    exact List.append_nil _

end Name

/-- What `Create` makes of a name. The entries give the name again, and cluster `c` is the first. -/
structure MadeFor (name : CString) (mode c : ℕ) (f : FileEntry) : Prop where
  longs : f.longs ≠ []
  length : f.longs.length = name.lfnNum
  name_eq : untilNul f.bytes = name.chars
  start : getStartCluster f.short = c
  attrib : f.short 11 = mkattr mode
  checksum : ∀ e ∈ f.longs, e 13 = fatChecksum f.short

section Create

variable {mode c : ℕ}

theorem madeFor_namedFile {entry : ByteMem} {t : Stamp} (hpos : 0 < name.strlen)
    (h : name.strlen ≤ 260)
    (hc : c < 2 ^ 32) {ha : entryBytes (fillMeta entry c mode t) 11 ≠ 0x0f}
    {hu : ¬FreeEntry (entryBytes (fillMeta entry c mode t))} :
    MadeFor name mode c (namedFile name (entryBytes (fillMeta entry c mode t)) h ha hu) := by
  have hnum : (namedFile name (entryBytes (fillMeta entry c mode t)) h ha hu).longs.length =
      name.lfnNum :=
    length_longs
  have hlongs : (namedFile name (entryBytes (fillMeta entry c mode t)) h ha hu).longs ≠ [] := by
    refine List.ne_nil_of_length_pos ?_
    rw [hnum, CString.lfnNum]
    omega
  refine ⟨hlongs, hnum, ?_, ?_, ?_, fun e he => ?_⟩
  · rw [FileEntry.bytes, if_neg hlongs, namedFile, chars_longs]
    exact untilNul_bytes (by rw [CString.lfnNum]; omega)
  · rw [namedFile, getStartCluster_entryBytes, getStartCluster_fillMeta hc]
  · change entryBytes (fillMeta entry c mode t) 11 = mkattr mode
    rw [entryBytes_at (show 11 < 32 by norm_num), fillMeta_attrib]
  · obtain ⟨x, hx, rfl⟩ := List.mem_map.mp he
    obtain ⟨seq, -, -, rfl⟩ := mem_longsFrom.mp hx
    exact (entryBytes_at (by norm_num)).trans longEntry_checksum

theorem mkattr_ne (mode : ℕ) : mkattr mode ≠ 0x0f := by
  rw [mkattr]
  split
  · decide
  · decide

theorem length_lt_of_dirEntries {B C : List ByteMem} {d : ByteMem}
    (hE : dirEntries s l = A ++ B ++ d :: C) : (A ++ B).length < 128 * l.length := by
  have hsize := congrArg List.length hE
  rw [length_dirEntries, List.length_append, List.length_cons] at hsize
  omega

/-- `Create` writes the short entry, reads it back for the checksum and writes the long entries. -/
theorem DirAtRest.writesNamed {B C : List ByteMem} {d : ByteMem} (h : DirAtRest s r l)
    (ha : OwnApart s r l) (hE : dirEntries s l = A ++ B ++ d :: C) (name : CString) (num : ℕ)
    (entry : ByteMem) :
    ∃ out s₁ s₂ s', writeBytes r entry (32 * (A ++ B).length) 32 s = .ok (32, s₁) ∧
      readInode r (fun _ => true) (32 * (A ++ B).length) 32 s₁ = .ok ((32, out), s₂) ∧
      overlay (fun _ => 0) out = entryBytes entry ∧
      createLoop r name (fatChecksum (entryBytes entry)) num B.length 1
        ((32 * (A ++ B).length + 2 ^ 32 - 32) % 2 ^ 32) s₂ = .ok ((), s') ∧
      Rewritten s r l l
        (A ++ ((List.range B.length).map fun j =>
          entryBytes (longEntry name (fatChecksum (entryBytes entry)) num (1 + j))).reverse ++
            entryBytes entry :: C) s.entry s' := by
  obtain ⟨ip, hon, -⟩ := h.node
  have hlen := hon.length_le
  have hk := length_lt_of_dirEntries hE
  obtain ⟨s₁, hwrite, hs₁⟩ := h.writes ha hk entry
  rw [hE, List.set_append_right _ _ le_rfl, Nat.sub_self, List.set_cons_zero] at hs₁
  have hget : (dirEntries s₁ l)[(A ++ B).length]? = some (entryBytes entry) := by
    rw [hs₁.entries, List.getElem?_append_right le_rfl, Nat.sub_self, List.getElem?_cons_zero]
  obtain ⟨out, s₂, hread, hout, hstay⟩ := hs₁.rest.readsInode hget
  have hs₂ := hs₁.trans (hstay.rewritten hs₁.rest)
  rw [hs₁.entries, hs₁.table] at hs₂
  have hoff : B ≠ [] → (32 * (A ++ B).length + 2 ^ 32 - 32) % 2 ^ 32 + 32 = 32 * (A ++ B).length :=
      fun hne => by
    have hpos := List.length_pos_of_ne_nil hne
    rw [List.length_append] at hk ⊢
    omega
  obtain ⟨s', hloop, hs'⟩ := hs₂.rest.writesLongs name (fatChecksum (entryBytes entry)) 1 num
    (ha.rewritten hs₂) hs₂.entries hoff
  have hall := hs₂.trans hs'
  rw [hs₂.table] at hall
  exact ⟨out, s₁, s₂, s', hwrite, hread, hout, hloop, hall⟩

/-- What `Create` leaves: the file `f` with the cluster `c` where the first run of free entries was,
between the items `pre` and `post`, and all else as it was. -/
structure Added (s : Fat32FileSystem) (r : InodeRef) (l : List ℕ) (items : List Item)
    (tail : List ByteMem) (name : CString) (mode c : ℕ) (f : FileEntry) (pre post : List Item)
    (tail' : List ByteMem) (s' : Fat32FileSystem) : Prop where
  free : s.Free c
  made : MadeFor name mode c f
  least : IsLeast {p | FreeRunAt (dirEntries s l) (name.lfnNum + 1) p} (layout pre).length
  taken : ∃ D, D.length = name.lfnNum + 1 ∧ dirEntries s l = layout pre ++ D ++ (layout post ++ tail')
  rewritten : Rewritten s r l (c :: l) (layout (pre ++ .file f :: post) ++ tail')
    (fun d => if d = c then endOfCluster else s.entry d) s'
  sub : (pre ++ post).Sublist items
  files_eq : files items = files pre ++ files post
  behind : tail' <:+ tail
  ne_nil : tail' ≠ []

/-- The last entry of the run takes the short entry, those before it the long ones. -/
theorem FreeRun.concat {D : List ByteMem} {n : ℕ}
    (hrun : FreeRun (n + 1) items tail pre D post tail') : ∃ B d, D = B ++ [d] ∧ B.length = n ∧
      layout items ++ tail = layout pre ++ B ++ d :: (layout post ++ tail') := by
  obtain ⟨B, d, rfl⟩ : ∃ B d, D = B ++ [d] := by
    rcases List.eq_nil_or_concat D with rfl | ⟨B, d, hD⟩
    · exact absurd hrun.length (Nat.succ_ne_zero _).symm
    · exact ⟨B, d, hD.trans (List.concat_eq_append ..)⟩
  have hD := hrun.length
  rw [List.length_append, List.length_singleton] at hD
  refine ⟨B, d, rfl, by omega, ?_⟩
  rw [hrun.entries]
  simp only [List.append_assoc, List.singleton_append]

theorem DirAtRest.findsRun {n : ℕ} (h : DirAtRest s r l)
    (hl : dirEntries s l = layout items ++ tail) (ht : ∀ e ∈ tail, e 0 = 0) (hne : tail ≠ [])
    (hroom : HasRoom (n + 1) (tail.length - 1) 0 items) (hn : n ≤ 20) :
    ∃ pre D post tail' s₁, Stays s r l s₁ ∧ FreeRun (n + 1) items tail pre D post tail' ∧
      findFreeEntry r (n + 1) s = .ok (32 * (layout pre).length, s₁) := by
  obtain ⟨ip, hon, hsz⟩ := h.node
  have hclusters := hon.length_le
  have hg : Gives (Stays s r l) (readEntry r) 0 (layout items ++ tail) := hl ▸ gives_dirEntries s r l
  have hsize := congrArg List.length hl
  rw [length_dirEntries, List.length_append] at hsize
  have hnil : ∀ it ∈ ([] : List Item), it.file? = none := fun it hit => absurd hit List.not_mem_nil
  have hfuel : (layout items).length + (n + 1) ≤ minusOne / 32 + 2 := by
    rw [minusOne]
    omega
  obtain ⟨pre, D, post, tail', s₁, hs₁, hrun, hfind⟩ :=
    findFreeLoop_finds (k := 0) (Nat.succ_pos n) hg
    h.stays (fun e he => .inr (ht e he)) hnil (Nat.succ_pos _) hroom hne rfl hfuel
  rw [List.nil_append] at hrun
  refine ⟨pre, D, post, tail', s₁, hs₁, hrun, ?_⟩
  rw [findFreeEntry, bind_of_ok (entryFuel_eq hon.node), hsz, ← Nat.zero_add (layout pre).length]
  exact hfind

theorem DirAtRest.adds (h : DirAtRest s r l) (ha : OwnApart s r l)
    (hrange : ∀ c, 2 ≤ c → s.info.InCache c → s.info.InRange c)
    (hl : dirEntries s l = layout items ++ tail) (ht : ∀ e ∈ tail, e 0 = 0) (hne : tail ≠ [])
    (hroom : HasRoom (name.lfnNum + 1) (tail.length - 1) 0 items) (hfree : ∃ c, s.Free c)
    (hpos : 0 < name.strlen) (hlen : name.strlen ≤ 260) (hbase : name.baseLength ≤ 32)
    (hfirst : name.bytes 0 ≠ 0xe5) (mode : ℕ) :
    ∃ c f pre post tail' s', create r name mode s = .ok (0, s') ∧
      Added s r l items tail name mode c f pre post tail' s' := by
  obtain ⟨ip, hon, -⟩ := h.node
  have hclusters := hon.length_le
  have hnum : name.lfnNum ≤ 20 := by
    rw [CString.lfnNum]
    omega
  obtain ⟨pre, D, post, tail', s₁, hs₁, hrun, hfind⟩ := h.findsRun hl ht hne hroom hnum
  obtain ⟨B, d, rfl, hB, hlast⟩ := hrun.concat
  have hentries : dirEntries s l = layout pre ++ B ++ d :: (layout post ++ tail') := hl.trans hlast
  have hk := length_lt_of_dirEntries hentries
  have hp : (layout pre ++ B).length = (layout pre).length + name.lfnNum := by
    rw [List.length_append, hB]
  have hw₁ := hs₁.rewritten h (K := l)
  have hfree₁ : ∃ c, s₁.Free c := hfree.imp fun c hc =>
    (free_congr hw₁.info (congrFun hw₁.table c)).mpr hc
  obtain ⟨c, s₂, hc, halloc, hw₂⟩ :=
    hw₁.rest.claims (fun c => by rw [hw₁.info]; exact hrange c) hfree₁
  have hc' : s.Free c := (free_congr hw₁.info (congrFun hw₁.table c)).mp hc
  have hin := (hrange c hc'.two_le hc'.inCache).lt
  have hlt : c < 2 ^ 32 := by
    rw [Fat32Info.clusterAddr] at hin
    omega
  obtain ⟨s₃, hfill, hw₃⟩ := hw₂.rest.fillsShort hbase c mode
  have h₂ := (hw₁.mono (List.subset_cons_self c l)).trans
    (hw₂.mono (List.cons_subset_cons c (List.nil_subset l)))
  have h₃ := h₂.trans (hw₃.mono (List.nil_subset _))
  rw [hw₂.entries, hw₂.table, hw₁.entries, hw₁.table, hentries] at h₃
  set entry := fillMeta (shortName (fun _ => 0) name).1 c mode (s₂.stamps s₂.stampNo) with hentry
  obtain ⟨out, s₄, s₅, s', hwrite, hread, hout, hloop, hw₆⟩ := h₃.rest.writesNamed (ha.rewritten h₃)
    h₃.entries name name.lfnNum entry
  have h₆ := h₃.trans (hw₆.mono (List.subset_cons_self c l))
  rw [h₃.table] at h₆
  have hattr : entryBytes entry 11 ≠ 0x0f := by
    rw [entryBytes_at (by norm_num), hentry, fillMeta_attrib]
    exact mkattr_ne mode
  have hused : ¬FreeEntry (entryBytes entry) := by
    have hname := shortName_in_use (fun _ => 0) hfirst
    rwa [FreeEntry, entryBytes_at (by norm_num), hentry, fillMeta_name (by norm_num)]
  refine ⟨c, namedFile name (entryBytes entry) hlen hattr hused, pre, post, tail', s', ?_, hc',
    madeFor_namedFile hpos hlen hlt, hl ▸ hrun.least, ⟨_, hrun.length, hl.trans hrun.entries⟩, ?_,
    hrun.sub, hrun.files_eq, hrun.behind, hrun.ne_nil⟩
  · have hdef : (name.strlen + 12) / 13 = name.lfnNum := rfl
    have hoff : (32 * (layout pre).length + name.lfnNum * 32) % 2 ^ 32 =
        32 * (layout pre ++ B).length := by
      rw [hp] at hk ⊢
      omega
    have hmany : ¬name.lfnNum ≥ 255 := by omega
    rw [hB] at hloop
    rw [create, hdef, bind_of_ok hfind]
    dsimp only
    rw [hoff, bind_of_ok halloc, bind_of_ok hfill, bind_of_ok hwrite, bind_of_ok hread]
    dsimp only
    rw [if_neg hmany, hout, bind_of_ok hloop]
    rfl
  · rw [hB] at h₆
    rw [Listed.layout_append, layout_cons, Item.entries, namedFile_longs]
    simp only [List.append_assoc, List.singleton_append] at h₆ ⊢
    exact h₆

/-- `Create` puts a new file into the first run of free entries that is long enough, with a cluster
that was free, and leaves all else as it is. -/
theorem create_adds (h : DirAtRest s r l) (ha : OwnApart s r l)
    (hrange : ∀ c, 2 ≤ c → s.info.InCache c → s.info.InRange c)
    (hl : dirEntries s l = layout items ++ tail) (ht : ∀ e ∈ tail, e 0 = 0) (hne : tail ≠ [])
    (hroom : HasRoom (name.lfnNum + 1) (tail.length - 1) 0 items) (hfree : ∃ c, s.Free c)
    (hpos : 0 < name.strlen) (hlen : name.strlen ≤ 260) (hbase : name.baseLength ≤ 32)
    (hfirst : name.bytes 0 ≠ 0xe5) (mode : ℕ) :
    ∃ c f pre post tail' s', s.Free c ∧ MadeFor name mode c f ∧ create r name mode s = .ok (0, s') ∧
      IsLeast {p | FreeRunAt (dirEntries s l) (name.lfnNum + 1) p} (layout pre).length ∧
      (∃ D, D.length = name.lfnNum + 1 ∧
        dirEntries s l = layout pre ++ D ++ (layout post ++ tail')) ∧
      Rewritten s r l (c :: l) (layout (pre ++ .file f :: post) ++ tail')
        (fun d => if d = c then endOfCluster else s.entry d) s' ∧
      (pre ++ post).Sublist items ∧ files items = files pre ++ files post ∧ tail' <:+ tail ∧
      tail' ≠ [] := by
  obtain ⟨c, f, pre, post, tail', s', hok, hadd⟩ :=
    h.adds ha hrange hl ht hne hroom hfree hpos hlen hbase hfirst mode
  exact ⟨c, f, pre, post, tail', s', hadd.free, hadd.made, hok, hadd.least, hadd.taken,
    hadd.rewritten, hadd.sub, hadd.files_eq, hadd.behind, hadd.ne_nil⟩

theorem inRange_subVolume (c : ℕ) (h : 2 ≤ c) (hc : subVolume.info.InCache c) :
    subVolume.info.InRange c := by
  have hle : c ≤ 100 := hc.le_count
  have hfirst : subVolume.info.firstDataSector = smallVolume.info.firstDataSector := rfl
  have hsmall : smallVolume.info.firstDataSector = 100 := by decide
  refine ⟨h, ?_⟩
  rw [Fat32Info.clusterAddr, hfirst, hsmall]
  omega

theorem free_subVolume : subVolume.Free 6 :=
  ⟨by norm_num, inCache_smallVolume (by norm_num), by decide +kernel⟩

theorem dirEntries_subVolume_zero : ∃ tail, dirEntries subVolume [2] = layout [.file fileA] ++ tail ∧
    (∀ e ∈ tail, e 0 = 0) ∧ tail.length = 126 :=
  ⟨(fun x => if x < 32 then fileByte subVolume [2] (32 * 2 + x) else 0) ::
    entriesFrom (fileByte subVolume [2]) 3 125, rfl, by decide +kernel, by decide +kernel⟩

theorem create_adds_subVolume : ∃ c f s', subVolume.Free c ∧ MadeFor nameA 0 c f ∧
    create (.pos 59392) nameA 0 subVolume = .ok (0, s') ∧ s'.entry c = endOfCluster := by
  obtain ⟨tail, hl, hzero, hlen⟩ := dirEntries_subVolume_zero
  have hne : tail ≠ [] := List.ne_nil_of_length_pos (by omega)
  have hnum : nameA.lfnNum = 1 := rfl
  have hroom : HasRoom (nameA.lfnNum + 1) (tail.length - 1) 0 [.file fileA] :=
    hasRoom_of_le (by omega)
  obtain ⟨c, f, pre, post, tail', s', hc, hf, hok, -, -, hs', -⟩ := create_adds dirAtRest_subVolume
    ownApart_subVolume inRange_subVolume hl hzero hne hroom ⟨6, free_subVolume⟩ (by decide)
      (by decide)
    (by decide) (by decide) 0
  refine ⟨c, f, s', hc, hf, hok, ?_⟩
  rw [hs'.table]
  exact if_pos rfl

end Create

end StartOS.Fat32FileSystem
